/-
# `bdf_to_asm`

The converter of `src/fonts/bdf_to_asm.c`: a font in BDF, read with `fgets`, becomes a source for
the assembler.

* A file is the text in front of the position (`behind`, the last character first) and the text
  from the position on.
* `buffer` has 256 bytes, so `fgets` takes a longer line in pieces of 255.  At the end of the file
  it takes nothing, and the buffer stays as it was: with a terminator behind the first word, if
  `strtok` has been at it.
* Where the source goes on with a word that is not there, or copies a name that does not fit in
  `ascii_name`, the result is `none`.
* The output is a list of lines; `AsmLine.render` is the text that `fprintf` writes for one.
-/
import AmateurOs.Terminal.Stdio

namespace AmateurOs.Fonts

open AmateurOs.Lib
open AmateurOs.Terminal (char text isDigit)

/-! ## 1. Files -/

/-- `'\n'`. -/
def newline : UInt8 := char '\n'

/-- An open file. -/
structure Stream where
  behind : List UInt8
  ahead : List UInt8

/-- The characters up to a newline, with it, but at most `n`. -/
def piece : Nat → List UInt8 → List UInt8
  | 0, _ => []
  | _ + 1, [] => []
  | n + 1, c :: cs => if c = newline then [c] else c :: piece n cs

/-- `sizeof buffer`. -/
def bufferSize : Nat := 256

/-- `fgets(buffer, sizeof buffer, file)`: the string in the buffer, and the file. -/
def fgets (file : Stream) : Option (List UInt8 × Stream) :=
  if file.ahead = [] then none
  else
    let line := piece (bufferSize - 1) file.ahead
    some (line, ⟨line.reverse ++ file.behind, file.ahead.drop line.length⟩)

/-- `fseek(file, -n, SEEK_CUR)`, which fails in front of the file. -/
def seekBack (n : Nat) (file : Stream) : Stream :=
  if file.behind.length < n then file
  else ⟨file.behind.drop n, (file.behind.take n).reverse ++ file.ahead⟩

/-- `read_until`: the file and the buffer. -/
def readUntil (string : List UInt8) : Nat → Stream → List UInt8 → Stream × List UInt8
  | 0, file, buffer => (file, buffer)
  | fuel + 1, file, buffer =>
    match fgets file with
    | none => (file, buffer)
    | some (line, file) =>
      if string.isPrefixOf line then (file, line) else readUntil string fuel file line

/-! ## 2. Words and numbers -/

/-- The delimiters `" \n"`. -/
def isDelimiter (c : UInt8) : Bool := c == char ' ' || c == newline

/-- `strtok`: a word, and the text from which the next call goes on. -/
def strtok (s : List UInt8) : Option (List UInt8 × List UInt8) :=
  let s := s.dropWhile isDelimiter
  if s = [] then none
  else some (s.takeWhile (!isDelimiter ·), (s.dropWhile (!isDelimiter ·)).drop 1)

/-- The second word of a line. -/
def secondWord (s : List UInt8) : Option (List UInt8) := do
  let first ← strtok s
  let second ← strtok first.2
  return second.1

/-- The string that is left in the buffer: it ends behind the first word. -/
def firstWord (s : List UInt8) : List UInt8 :=
  s.takeWhile isDelimiter ++ (s.dropWhile isDelimiter).takeWhile (!isDelimiter ·)

/-- The value of decimal digits. -/
def decimalValue (ds : List UInt8) : Nat := ds.foldl (fun v c => v * 10 + (c.toNat - 48)) 0

/-- The other characters that `isspace` accepts: tabulators, form feeds, carriage returns. -/
def isSpace (c : UInt8) : Bool := isDelimiter c || (9 ≤ c && c ≤ 13)

/-- `strtol(s, NULL, 10)`. -/
def strtol (s : List UInt8) : Int :=
  let s := s.dropWhile isSpace
  let signed := s.head? = some (char '-') ∨ s.head? = some (char '+')
  let value := decimalValue ((if signed then s.drop 1 else s).takeWhile isDigit)
  if s.head? = some (char '-') then max (-value) (-9223372036854775808)
  else min value 9223372036854775807

/-- `(int)`. -/
def toInt (i : Int) : Int := (i + 2147483648) % 4294967296 - 2147483648

/-- The digits that `%u` and `%lu` print. -/
def decimalText (n : Nat) : List UInt8 := (Nat.toDigits 10 n).map char

/-! ## 3. The output -/

/-- `define_width`. -/
inductive DefineWidth
  | db
  | dw
  | dd
  deriving DecidableEq

/-- The bytes that it defines. -/
def DefineWidth.bytes : DefineWidth → Nat
  | .db => 1
  | .dw => 2
  | .dd => 4

def DefineWidth.text : DefineWidth → List UInt8
  | .db => Terminal.text "db"
  | .dw => Terminal.text "dw"
  | .dd => Terminal.text "dd"

/-- What one `fprintf` writes. -/
inductive AsmLine
  | comment (s : List UInt8)
  | size (fontW fontH : List UInt8)
  | initialPadding (n : Nat)
  | bitmap (width : DefineWidth) (buffer : List UInt8)
  | sectorPadding (n : Nat)

/-- The text written. -/
def AsmLine.render : AsmLine → List UInt8
  | .comment s => s
  | .size fontW fontH => text ";; Font width, height\ndb " ++ fontW ++ text ", " ++ fontH ++
      text "\n\n"
  | .initialPadding n => text ";; Initial padding\ntimes 31*" ++ decimalText n ++
      text " - 2 db 0\n\n"
  | .bitmap width buffer => width.text ++ text " 0x" ++ buffer
  | .sectorPadding n => text "\n;; Sector padding\ntimes " ++ decimalText n ++
      text "-($-$$) db 0\n"

/-- `((font_width-1) / 8) + 1`. -/
def widthBytes (fontWidth : Int) : Int := (fontWidth - 1).tdiv 8 + 1

/-- The `switch` on it. -/
def defineWidth (fontWidth : Int) : Option DefineWidth :=
  if widthBytes fontWidth = 1 then some .db
  else if widthBytes fontWidth = 2 then some .dw
  else if widthBytes fontWidth = 4 then some .dd
  else none

/-! ## 4. The conversion -/

/-- The lines of a bitmap, up to `ENDCHAR`. -/
def bitmapLoop (width : DefineWidth) : Nat → Stream → List UInt8 →
    List AsmLine × Stream × List UInt8
  | 0, file, buffer => ([], file, buffer)
  | fuel + 1, file, buffer =>
    match fgets file with
    | none => ([], file, buffer)
    | some (line, file) =>
      if (text "ENDCHAR").isPrefixOf line then ([], file, line)
      else
        let rest := bitmapLoop width fuel file line
        (.bitmap width line :: rest.1, rest.2)

/-- The line `ENCODING`: the buffer and the file. -/
def readEncoding (file : Stream) (buffer : List UInt8) : Stream × List UInt8 :=
  match fgets file with
  | none => (file, firstWord buffer)
  | some (line, file) => (file, line)

/-- The size of `ascii_name`. -/
def asciiNameSize : Nat := 32

/-- The loop over the characters. -/
def charLoop (width : DefineWidth) : Nat → Stream → List UInt8 → Option (List AsmLine)
  | 0, _, _ => none
  | fuel + 1, file, buffer => do
    let start := readUntil (text "STARTCHAR") fuel file buffer
    let asciiName ← secondWord start.2
    if asciiName.length ≥ asciiNameSize then none
    else
      let encoding := readEncoding start.1 start.2
      let num ← secondWord encoding.2
      if strtol num > 126 then some []
      else
        let bitmap := readUntil (text "BITMAP") fuel encoding.1 (firstWord encoding.2)
        let lines := bitmapLoop width fuel bitmap.1 bitmap.2
        let rest ← charLoop width fuel lines.2.1 lines.2.2
        some (.comment (text ";; " ++ asciiName ++ text " " ++ num ++ text "\n") ::
          (lines.1 ++ rest))

/-- The cursor line as the last character. -/
def cursorLines (width : DefineWidth) (fontWidth fontHeight : Int) : List AsmLine :=
  .comment (text ";; Cursor Line 127\n") :: (List.range fontHeight.toNat).map fun (i : Nat) =>
    .bitmap width ((if (i : Int) < fontHeight - 1 then text "00000000" else text "FFFFFFFF").take
      (widthBytes fontWidth * 2).toNat ++ text "\n")

/-- `next_sector_size`. -/
def nextSectorSize (currentSize : Nat) : Nat := currentSize - currentSize % 512 + 512

/-- The text that has been written. -/
def renderAll (lines : List AsmLine) : List UInt8 := lines.flatMap AsmLine.render

/-- `output_name`: the extension replaced. -/
def outputName (path : List UInt8) : List UInt8 := path.take (path.length - 3) ++ text "asm"

/-- `main`, with the path of the font and its text. -/
def bdfToAsm (path font : List UInt8) : Option (List AsmLine) := do
  let fuel := font.length + 1
  let title := .comment (text ";;;\n;;; " ++ outputName path ++ text "\n;;;\n\n")
  let box := readUntil (text "FONTBOUNDINGBOX") fuel ⟨[], font⟩ []
  let keyword ← strtok box.2
  let fontW ← strtok keyword.2
  let fontH ← strtok fontW.2
  let size := .size fontW.1 fontH.1
  let fontWidth := toInt (strtol fontW.1)
  let fontHeight := toInt (strtol fontH.1)
  match defineWidth fontWidth with
  | none => some [title, size]
  | some width =>
    let padding := .initialPadding (u32 (fontHeight * widthBytes fontWidth % 4294967296).toNat)
    let space := readUntil (text "STARTCHAR space") fuel box.1 (firstWord box.2)
    let chars ← charLoop width (fuel + 1) (seekBack 16 space.1) space.2
    let lines := title :: size :: padding :: (chars ++ cursorLines width fontWidth fontHeight)
    some (lines ++ [.sectorPadding (nextSectorSize (renderAll lines).length)])

/-! ## 5. The assembler -/

/-- The value of a hexadecimal digit. -/
def hexDigit (c : UInt8) : Option Nat :=
  if isDigit c then some (c.toNat - 48)
  else if char 'A' ≤ c ∧ c ≤ char 'F' then some (c.toNat - 55)
  else if char 'a' ≤ c ∧ c ≤ char 'f' then some (c.toNat - 87)
  else none

/-- The value of hexadecimal digits. -/
def hexValue (ds : List UInt8) : Nat := ds.foldl (fun v c => v * 16 + (hexDigit c).getD 0) 0

/-- The number behind `0x`, up to the end of the line. -/
def hexNumber (buffer : List UInt8) : Option Nat :=
  let ds := buffer.takeWhile (· ≠ newline)
  if ds ≠ [] ∧ ds.all fun c => (hexDigit c).isSome then some (hexValue ds) else none

/-- A decimal number. -/
def decimalNumber (s : List UInt8) : Option Nat :=
  if s ≠ [] ∧ s.all isDigit then some (decimalValue s) else none

/-- The bytes of a number, the lowest first. -/
def littleEndian (n value : Nat) : List UInt8 := (List.range n).map (wordByte value)

/-- The bytes of a line at address `size`; a negative `times` is an error. -/
def AsmLine.assemble (size : Nat) : AsmLine → Option (List UInt8)
  | .comment _ => some []
  | .size fontW fontH => do
    let w ← decimalNumber fontW
    let h ← decimalNumber fontH
    return [wordByte w 0, wordByte h 0]
  | .initialPadding n => if 2 ≤ 31 * n then some (List.replicate (31 * n - 2) 0) else none
  | .bitmap width buffer => (hexNumber buffer).map (littleEndian width.bytes)
  | .sectorPadding n => if size ≤ n then some (List.replicate (n - size) 0) else none

/-- The bytes of a source, from address `size` on. -/
def assemble : Nat → List AsmLine → Option (List UInt8)
  | _, [] => some []
  | size, line :: lines => do
    let bytes ← line.assemble size
    let rest ← assemble (size + bytes.length) lines
    return bytes ++ rest

/-- **The font in memory**: converted and assembled. -/
def fontImage (path font : List UInt8) : Option (List UInt8) := do
  let lines ← bdfToAsm path font
  assemble 0 lines

end AmateurOs.Fonts
