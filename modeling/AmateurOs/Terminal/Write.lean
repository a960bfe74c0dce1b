/-
# `terminal_write`

The terminal of `terminal/terminal.h`: its variables, the escape sequences, the glyphs drawn into
the frame buffer, and the cursor drawn at the end.

* Physical memory is one array of bytes: it holds the font and, at `physical_base_pointer`, the
  frame buffer.
* The scans of an escape sequence run until they meet their end mark, also past `len`.  The index
  `i` is a `uint32_t`, so a scan that has not met it after 2^32 bytes never does: the result of
  `terminalWrite` is `none` then.
* The source divides by the width and the height of the font, which are not 0.
-/
import AmateurOs.Fs.Path
import AmateurOs.Terminal.Stdio

namespace AmateurOs.Terminal

open AmateurOs.Lib AmateurOs.Fs

/-! ## 1. The graphics mode and the terminal -/

/-- The fields of `vbe_mode_info_t` that the terminal reads. -/
structure VbeModeInfo where
  xResolution : UInt16
  yResolution : UInt16
  bitsPerPixel : UInt8
  physicalBasePointer : UInt32
  linearBytesPerScanline : UInt16
  linearRedMaskSize : UInt8
  linearRedFieldPosition : UInt8
  linearGreenMaskSize : UInt8
  linearGreenFieldPosition : UInt8
  linearBlueMaskSize : UInt8
  linearBlueFieldPosition : UInt8

/-- The persistent variables of the terminal, `user_gfx_info`, and memory. -/
structure Tty where
  x : Nat
  y : Nat
  fgColor : Nat
  bgColor : Nat
  showCursor : Bool
  userFg : Nat
  userBg : Nat
  mem : Bytes

/-- `FONT_ADDRESS`; the width and the height of the font are its first two bytes. -/
def fontAddress : Nat := 0xD000

/-- `FONT_W` and `FONT_H`, which `terminal_write` and `draw_cursor` load when they begin. -/
structure Font where
  width : Nat
  height : Nat

/-- The font in memory. -/
def Tty.font (t : Tty) : Font where
  width := (t.mem fontAddress).toNat
  height := (t.mem (fontAddress + 1)).toNat

/-- `bytes_per_pixel`. -/
def VbeModeInfo.bytesPerPixel (g : VbeModeInfo) : Nat := u8 ((g.bitsPerPixel.toNat + 1) / 8)

/-- `bytes_per_char_line`; for a width of 0 the quotient `(FONT_W - 1) / 8` is 0. -/
def Font.bytesPerCharLine (f : Font) : Nat := u8 ((f.width - 1) / 8 + 1)

/-- `char_size`. -/
def Font.charSize (f : Font) : Nat := u8 (f.bytesPerCharLine * f.height)

/-- `X_LIMIT`. -/
def xLimit (g : VbeModeInfo) (f : Font) : Nat := g.xResolution.toNat / f.width

/-- `Y_LIMIT`. -/
def yLimit (g : VbeModeInfo) (f : Font) : Nat := g.yResolution.toNat / f.height

/-- One colour portion of `convert_color`: the bits of `orig` that a mask of `size` bits keeps,
at its position. -/
def colorPart (orig size position : Nat) : Nat :=
  ((orig >>> u8 (8 + 256 - size)) &&& u8 ((1 <<< size) - 1)) <<< position

/-- `convert_color`. -/
def convertColor (g : VbeModeInfo) (color : Nat) : Nat :=
  let origR := u8 (color >>> 16)
  let origG := u8 (color >>> 8)
  let origB := u8 color
  if g.bitsPerPixel = 8 then u32 (origB <<< g.linearBlueFieldPosition.toNat)
  else
    u32 (colorPart origR g.linearRedMaskSize.toNat g.linearRedFieldPosition.toNat |||
      colorPart origG g.linearGreenMaskSize.toNat g.linearGreenFieldPosition.toNat |||
      colorPart origB g.linearBlueMaskSize.toNat g.linearBlueFieldPosition.toNat)

/-! ## 2. Drawing -/

/-- A pixel of the colour, by the number of bytes it has. -/
def putPixel (bytesPerPixel : Nat) (m : Bytes) (framebuffer color : Nat) : Bytes :=
  if bytesPerPixel > 2 then put32 m (u32 framebuffer) color
  else if bytesPerPixel = 2 then put16 m (u32 framebuffer) color
  else if bytesPerPixel = 1 then blit m (u32 framebuffer) 1 (wordByte color)
  else m

/-- The address of the pixel in the top left corner of the cursor's cell. -/
def cellAddress (g : VbeModeInfo) (f : Font) (t : Tty) : Nat :=
  u32 (g.physicalBasePointer.toNat +
    t.y * f.height * g.xResolution.toNat * g.bytesPerPixel + t.x * f.width * g.bytesPerPixel)

/-- The bits of a line of a glyph in the order they are drawn: from the last byte to the first,
from bit 7 to bit 0, as many as the font is wide. -/
def lineBits (fontChar : Bytes) (bytesPerCharLine fontW : Nat) : List Bool :=
  (((List.range bytesPerCharLine).reverse.map fun byte =>
    (List.range 8).reverse.map fun bit => (fontChar byte).toNat.testBit bit).flatten).take fontW

/-- The pixels of one line, from `framebuffer` on. -/
def drawLine (put : Bytes → Nat → Nat → Bytes) (bytesPerPixel fg bg : Nat) :
    List Bool → Nat → Bytes → Bytes
  | [], _, m => m
  | bit :: bits, framebuffer, m =>
    drawLine put bytesPerPixel fg bg bits (framebuffer + bytesPerPixel)
      (put m framebuffer (if bit then fg else bg))

/-- The glyph of a character, line by line; the bits of a line are read before it is drawn. -/
def drawChar (g : VbeModeInfo) (f : Font) (t : Tty) (c : UInt8) : Tty :=
  let fontChar := u32 (fontAddress + sub32 (c.toNat * f.charSize) f.charSize)
  let pitch := g.xResolution.toNat * g.bytesPerPixel
  let drawn := (List.range f.height).foldl
    (fun m line =>
      drawLine (putPixel g.bytesPerPixel) g.bytesPerPixel t.userFg t.userBg
        (lineBits (slice m (fontChar + line * f.bytesPerCharLine)) f.bytesPerCharLine f.width)
        (cellAddress g f t + line * pitch) m)
    t.mem
  { t with mem := drawn }

/-- `draw_cursor`: the last line of character 127 at the foot of the cursor's cell.  Its pixels
have four bytes in every mode. -/
def drawCursor (g : VbeModeInfo) (draw : Bool) (t : Tty) : Tty :=
  let f := t.font
  let fontChar := u32 (fontAddress + sub32 (127 * f.charSize) f.bytesPerCharLine)
  let framebuffer := cellAddress g f t +
    g.xResolution.toNat * sub32 f.height 1 * g.bytesPerPixel
  let bits := (lineBits (slice t.mem fontChar) f.bytesPerCharLine f.width).map (· && draw)
  { t with
    mem := drawLine (fun m framebuffer color => put32 m (u32 framebuffer) color)
      g.bytesPerPixel t.userFg t.userBg bits framebuffer t.mem }

/-- The lines of the screen one row up: `memcpy32` from the second row to the first.  The bytes
are copied upwards, so each is read before it is overwritten. -/
def scroll (g : VbeModeInfo) (f : Font) (t : Tty) : Tty :=
  let top := g.physicalBasePointer.toNat
  let second := top + g.xResolution.toNat * f.height * g.bytesPerPixel
  { t with
    mem := blit t.mem top
      (u32 (sub32 g.yResolution.toNat f.height * g.linearBytesPerScanline.toNat))
      (slice t.mem second) }

/-- The whole screen in the background colour. -/
def clearScreen (g : VbeModeInfo) (t : Tty) : Tty :=
  { t with
    mem := (List.range (g.xResolution.toNat * g.yResolution.toNat)).foldl
      (fun m j =>
        putPixel g.bytesPerPixel m (g.physicalBasePointer.toNat + j * g.bytesPerPixel) t.userBg)
      t.mem }

/-- The cursor one row down, and the screen scrolled when that is the last one. -/
def lineFeed (g : VbeModeInfo) (f : Font) (t : Tty) : Tty :=
  let t := { t with y := u32 (t.y + 1) }
  if t.y ≥ sub32 (yLimit g f) 1 then { scroll g f t with y := sub32 t.y 1 } else t

/-- A character drawn, and the cursor moved on. -/
def printChar (g : VbeModeInfo) (f : Font) (t : Tty) (c : UInt8) : Tty :=
  let t := drawChar g f t c
  let t := { t with x := u32 (t.x + 1) }
  if t.x < xLimit g f then t else lineFeed g f { t with x := 0 }

/-! ## 3. Escape sequences -/

/-- The turns after which the index of a scan is back where it was. -/
def indexTurns : Nat := 4294967296

/-- `while (str[i] != stop)`: the index of the end mark and the value that the characters before
it leave. -/
def scan (str : Bytes) (stop : UInt8) (next : Nat → UInt8 → Nat) :
    Nat → Nat → Nat → Option (Nat × Nat)
  | 0, _, _ => none
  | fuel + 1, i, value =>
    if str i = stop then some (i, value)
    else scan str stop next fuel (i + 1) (next value (str i))

/-- A digit of a cursor position. -/
def decimal (value : Nat) (c : UInt8) : Nat := sub32 (u32 (value * 10 + c.toNat)) 48

/-- A digit of a colour: `'A'` to `'F'` stand for 10 to 15. -/
def colorDigit (base value : Nat) (c : UInt8) : Nat :=
  sub32 (u32 (value * base + c.toNat)) (if char 'A' ≤ c ∧ c ≤ char 'F' then 55 else 48)

/-- Whether the text at `i` begins with a literal, as `strncmp` with its length says. -/
def beginsAt (str : Bytes) (i : Nat) (s : List UInt8) : Bool :=
  strncmpEq (slice str i) (cstr s fun _ => 0) s.length

/-- `"\eX#Y#;"`, from the `X` on. -/
def setPosition (str : Bytes) (i : Nat) (t : Tty) : Option (Nat × Tty) := do
  let (i, x) ← scan str (char 'Y') decimal indexTurns (i + 1) 0
  let (i, y) ← scan str (char ';') decimal indexTurns (i + 1) 0
  return (i, { t with x := x, y := y })

/-- A colour of `"\eFG#BG#;"`: hexadecimal behind `0x`, decimal otherwise. -/
def readColor (str : Bytes) (i : Nat) (stop : UInt8) : Option (Nat × Nat) :=
  if str i = char '0' ∧ str (i + 1) = char 'x' then
    scan str stop (colorDigit 16) indexTurns (i + 2) 0
  else scan str stop (colorDigit 10) indexTurns i 0

/-- `"\eFG#BG#;"`, from the `FG` on. -/
def setColors (g : VbeModeInfo) (str : Bytes) (i : Nat) (t : Tty) :
    Option (Nat × Tty) := do
  let (i, fg) ← readColor str (i + 2) (char 'B')
  let (i, bg) ← readColor str (i + 2) (char ';')
  return (i, { t with
    fgColor := fg
    bgColor := bg
    userFg := convertColor g fg
    userBg := convertColor g bg })

/-- The escape sequence whose first character after the escape is at `i`, and the index of the
last character taken.  Of an unknown sequence that is the first one. -/
def escape (g : VbeModeInfo) (str : Bytes) (i : Nat) (t : Tty) : Option (Nat × Tty) :=
  if str i = char 'X' then setPosition str i t
  else if beginsAt str i (text "CLS;") then
    some (i + 3, { clearScreen g t with x := 0, y := 0 })
  else if beginsAt str i (text "FG") then setColors g str i t
  else if beginsAt str i (text "CSRON;") then
    some (i + 5, drawCursor g true { t with showCursor := true })
  else if beginsAt str i (text "CSROFF;") then
    some (i + 6, drawCursor g false { t with showCursor := false })
  else if beginsAt str i (text "BS;") then some (i + 2, { t with x := sub32 t.x 1 })
  else some (i, t)

/-! ## 4. Writing -/

/-- The character at `i`, and the index of the last character taken. -/
def writeAt (g : VbeModeInfo) (f : Font) (str : Bytes) (i : Nat) (t : Tty) :
    Option (Nat × Tty) :=
  if str i = 0x1b then escape g str (i + 1) t
  else if str i = char '\n' then some (i, lineFeed g f t)
  else if str i = char '\r' then some (i, { t with x := 0 })
  else some (i, printChar g f t (str i))

/-- The loop of `terminal_write` from index `i` on. -/
def writeLoop (g : VbeModeInfo) (f : Font) (str : Bytes) (len : Nat) :
    Nat → Nat → Tty → Option (Nat × Tty)
  | 0, _, _ => none
  | fuel + 1, i, t =>
    if i < len ∧ str i ≠ 0 then do
      let (i, t) ← writeAt g f str i t
      writeLoop g f str len fuel (i + 1) t
    else some (i, t)

/-- `terminal_write`: the number of bytes it took, and the terminal afterwards. -/
def terminalWrite (g : VbeModeInfo) (t : Tty) (str : Bytes) (len : Nat) :
    Option (Nat × Tty) := do
  let (i, t) ← writeLoop g t.font str len indexTurns 0 t
  return (i, drawCursor g t.showCursor t)

/-- A mode of 1024 by 768 pixels of 32 bits. -/
def mode1024 : VbeModeInfo := ⟨1024, 768, 32, 0xFD000000, 4096, 8, 16, 8, 8, 8, 0⟩

/-- The terminal at the start, in front of a memory of zeros. -/
def freshTerminal : Tty := ⟨0, 0, 0x00DDDDDD, 0x00222222, true, 0, 0, fun _ => 0⟩

end AmateurOs.Terminal
