/-
# Cells of the screen

What the drawing of `terminal_write` does to the pixels of the screen, where these have four bytes
and its lines follow each other in memory (`Display`): a character fills the cell of the cursor and
no other (`Display.drawChar`), the cursor its last line (`Display.drawCursor`), and the scrolling
moves all lines up by the height of a row (`Display.scroll`).  None of them touches the font.
-/
import AmateurOs.Fonts.Glyphs

namespace AmateurOs.Terminal

open AmateurOs.Lib
open AmateurOs.Fonts

/-! ## 1. Pictures -/

/-- The colours of the pixels of a cell, by line and column. -/
abbrev Picture : Type := Nat → Nat → Nat

/-- The colour of a pixel of the screen. -/
def pixel (g : VbeModeInfo) (m : Bytes) (px py : Nat) : Nat := le32 m (pixelAddress g px py)

/-- The colours inside a cell. -/
def frame (f : Font) (colour : Nat → Nat → Nat) : Picture := fun line x =>
  if line < f.height ∧ x < f.width then colour line x else 0

theorem frame_apply {f : Font} {colour : Nat → Nat → Nat} {line x : Nat} (hline : line < f.height)
    (hx : x < f.width) : frame f colour line x = colour line x := if_pos ⟨hline, hx⟩

theorem frame_congr {f : Font} {colour colour' : Nat → Nat → Nat}
    (h : ∀ line < f.height, ∀ x < f.width, colour line x = colour' line x) :
    frame f colour = frame f colour' := by
  funext line x
  unfold frame
  split
  · next hin => exact h line hin.1 x hin.2
  · rfl

/-- **What a cell of the screen shows.** -/
def picture (g : VbeModeInfo) (f : Font) (m : Bytes) (row column : Nat) : Picture :=
  frame f fun line x => pixel g m (column * f.width + x) (row * f.height + line)

/-- Bit `x` of a line of a character of the font. -/
def fontBit (f : Font) (m : Bytes) (c line x : Nat) : Bool :=
  (m (fontAddress + (c - 1) * f.charSize + line * f.bytesPerCharLine +
    (f.bytesPerCharLine - 1 - x / 8))).toNat.testBit (7 - x % 8)

/-- A character of the font. -/
def glyphPicture (t : Tty) (c : Nat) : Picture :=
  frame t.font fun line x => u32 (if fontBit t.font t.mem c line x then t.userFg else t.userBg)

/-- A cell with the cursor: the last line is that of character 127. -/
def cursorPicture (t : Tty) (p : Picture) : Picture :=
  frame t.font fun line x => if line + 1 = t.font.height then
    u32 (if fontBit t.font t.mem 127 line x && t.showCursor then t.userFg else t.userBg)
    else p line x

/-! ## 2. Displays -/

/-- **A display**: pixels of four bytes in lines that follow each other in memory, apart from a font
whose characters have less than 256 bytes. -/
structure Display (g : VbeModeInfo) (t : Tty) : Prop where
  bits : g.bitsPerPixel = 32
  pitch : g.linearBytesPerScanline.toNat = g.xResolution.toNat * 4
  memory : g.physicalBasePointer.toNat +
    g.yResolution.toNat * (g.xResolution.toNat * 4) ≤ 4294967296
  width : 0 < t.font.width
  height : 0 < t.font.height
  size : t.font.bytesPerCharLine * t.font.height < 256
  apart : Lib.Apart (fontAddress, 127 * t.font.charSize)
    (g.physicalBasePointer.toNat, g.yResolution.toNat * (g.xResolution.toNat * 4))

/-- The part of the terminal that texts do not change. -/
structure SameTools (t t' : Tty) : Prop where
  font : ∀ a, Inside a (fontAddress, 127 * t.font.charSize) → t'.mem a = t.mem a
  fg : t'.userFg = t.userFg
  bg : t'.userBg = t.userBg
  cursor : t'.showCursor = t.showCursor

section

variable {g : VbeModeInfo} {t t' : Tty} (h : Display g t)

include h

theorem Display.bytesPerPixel : g.bytesPerPixel = 4 := by
  unfold VbeModeInfo.bytesPerPixel
  rw [h.bits]
  rfl

theorem Display.charSize : t.font.charSize = t.font.bytesPerCharLine * t.font.height :=
  Nat.mod_eq_of_lt h.size

omit h in
theorem bytesPerCharLine_eq : t.font.bytesPerCharLine = (t.font.width - 1) / 8 + 1 := by
  have hwidth : t.font.width < 256 := (t.mem fontAddress).toNat_lt
  exact Nat.mod_eq_of_lt (by omega)

/-- The bytes of a character. -/
theorem Display.fontBytes {c line k : Nat} (hc : 0 < c ∧ c ≤ 127) (hline : line < t.font.height)
    (hk : k < t.font.bytesPerCharLine) :
    Inside (fontAddress + (c - 1) * t.font.charSize + line * t.font.bytesPerCharLine + k)
      (fontAddress, 127 * t.font.charSize) := by
  have hrow : line * t.font.bytesPerCharLine + t.font.bytesPerCharLine ≤ t.font.charSize := by
    rw [h.charSize, Nat.mul_comm t.font.bytesPerCharLine, ← Nat.succ_mul]
    exact Nat.mul_le_mul_right _ hline
  have hchar : (c - 1) * t.font.charSize + t.font.charSize ≤ 127 * t.font.charSize := by
    rw [← Nat.succ_mul]
    exact Nat.mul_le_mul_right _ (by omega)
  unfold Inside
  simp only
  omega

/-- The size of the font is in its first two bytes. -/
theorem Display.sameFont (hsame : SameTools t t') : t'.font = t.font := by
  have hpos : 1 * 1 ≤ t.font.bytesPerCharLine * t.font.height :=
    Nat.mul_le_mul (by rw [bytesPerCharLine_eq]; omega) h.height
  have hsize := h.charSize
  have hbyte : ∀ k < 2, t'.mem (fontAddress + k) = t.mem (fontAddress + k) := fun k hk =>
    hsame.font _ ⟨Nat.le_add_right _ _, by simp only; omega⟩
  have hfirst := hbyte 0 (by decide)
  have hsecond := hbyte 1 (by decide)
  rw [Nat.add_zero] at hfirst
  unfold Tty.font
  rw [hfirst, hsecond]

theorem Display.fontBit_same (hsame : SameTools t t') {c line x : Nat} (hc : 0 < c ∧ c ≤ 127)
    (hline : line < t.font.height) :
    fontBit t.font t'.mem c line x = fontBit t.font t.mem c line x := by
  unfold fontBit
  rw [hsame.font _ (h.fontBytes hc hline (by rw [bytesPerCharLine_eq]; omega))]

/-- Characters look the same. -/
theorem Display.glyph_same (hsame : SameTools t t') {c : Nat} (hc : 0 < c ∧ c ≤ 127) :
    glyphPicture t' c = glyphPicture t c := by
  unfold glyphPicture
  rw [h.sameFont hsame, hsame.fg, hsame.bg]
  refine frame_congr fun line hline x _ => ?_
  rw [h.fontBit_same hsame hc hline]

theorem Display.cursor_same (hsame : SameTools t t') : cursorPicture t' = cursorPicture t := by
  funext p
  unfold cursorPicture
  rw [h.sameFont hsame, hsame.fg, hsame.bg, hsame.cursor]
  refine frame_congr fun line hline x _ => ?_
  rw [@Display.fontBit_same g t t' h hsame 127 line x (by decide) hline]

theorem Display.same_trans {t'' : Tty} (hsame : SameTools t t') (hsame' : SameTools t' t'') :
    SameTools t t'' :=
  ⟨fun a ha => (hsame'.font a ((h.sameFont hsame).symm ▸ ha)).trans (hsame.font a ha),
    hsame'.fg.trans hsame.fg, hsame'.bg.trans hsame.bg, hsame'.cursor.trans hsame.cursor⟩

/-- It stays a display. -/
theorem Display.next (hsame : SameTools t t') : Display g t' := by
  have hfont := h.sameFont hsame
  exact ⟨h.bits, h.pitch, h.memory, hfont ▸ h.width, hfont ▸ h.height, hfont ▸ h.size,
    hfont ▸ h.apart⟩

/-- A pixel lies in the frame buffer. -/
theorem Display.address {px py : Nat} (hx : px < g.xResolution.toNat)
    (hy : py < g.yResolution.toNat) :
    pixelAddress g px py = g.physicalBasePointer.toNat + py * (g.xResolution.toNat * 4) + px * 4 ∧
      pixelAddress g px py + 4 ≤
        g.physicalBasePointer.toNat + g.yResolution.toNat * (g.xResolution.toNat * 4) := by
  have hline : (py + 1) * (g.xResolution.toNat * 4) ≤
      g.yResolution.toNat * (g.xResolution.toNat * 4) := Nat.mul_le_mul_right _ hy
  rw [Nat.succ_mul] at hline
  unfold pixelAddress
  rw [h.pitch]
  omega

omit h in
/-- A cell lies on the screen. -/
theorem cell_lt {column x : Nat} (hcolumn : column < xLimit g t.font)
    (hx : x < t.font.width) : column * t.font.width + x < g.xResolution.toNat := by
  have hnext : (column + 1) * t.font.width ≤ g.xResolution.toNat :=
    (Nat.mul_le_mul_right _ hcolumn).trans (Nat.div_mul_le_self _ _)
  rw [Nat.succ_mul] at hnext
  omega

omit h in
theorem line_lt {row line : Nat} (hrow : row < yLimit g t.font)
    (hline : line < t.font.height) : row * t.font.height + line < g.yResolution.toNat := by
  have hnext : (row + 1) * t.font.height ≤ g.yResolution.toNat :=
    (Nat.mul_le_mul_right _ hrow).trans (Nat.div_mul_le_self _ _)
  rw [Nat.succ_mul] at hnext
  omega

end

/-! ## 3. Drawing in a cell -/

/-- **A picture drawn in the cell of the cursor**, and nothing else. -/
structure CellDrawn (g : VbeModeInfo) (t t' : Tty) (p : Picture) : Prop where
  tools : SameTools t t'
  column : t'.x = t.x
  row : t'.y = t.y
  inside : ∀ line < t.font.height, ∀ x < t.font.width,
    pixel g t'.mem (t.x * t.font.width + x) (t.y * t.font.height + line) = p line x
  outside : ∀ px < g.xResolution.toNat, ∀ py < g.yResolution.toNat,
    (t.y * t.font.height ≤ py → py < t.y * t.font.height + t.font.height →
      px < t.x * t.font.width ∨ t.x * t.font.width + t.font.width ≤ px) →
    pixel g t'.mem px py = pixel g t.mem px py

/-- **A pixel of a character**, by the bit that is read when its line is drawn. -/
theorem drawLines_bit {fg bg cell pitch width height n fontChar r x : Nat} {m : Bytes} {bit : Bool}
    (hend : ∀ line < height, cell + line * pitch + 4 * width ≤ 4294967296)
    (hpitch : 4 * width ≤ pitch) (hr : r < height) (hx : x < width)
    (hbit : (lineBits (slice (drawLines fg bg cell pitch width n fontChar m (List.range r))
      (fontChar + r * n)) n width)[x]? = some bit) :
    le32 (drawLines fg bg cell pitch width n fontChar m (List.range height))
      (cell + r * pitch + 4 * x) = u32 (if bit then fg else bg) := by
  have hsplit : List.range height = List.range r ++ r :: List.range' (r + 1) (height - r - 1) := by
    rw [List.range_eq_range', List.range_eq_range', ← List.range'_succ]
    have hjoin := @List.range'_append_1 0 r (height - r - 1 + 1)
    rw [Nat.zero_add] at hjoin
    rw [hjoin]
    congr 1
    omega
  have hlength := lineBits_length (slice (drawLines fg bg cell pitch width n fontChar m
    (List.range r)) (fontChar + r * n)) n width
  have hroom := hend r hr
  have hpixel := @drawLine_pixel fg bg _ (cell + r * pitch)
    (drawLines fg bg cell pitch width n fontChar m (List.range r)) (by omega) x _ hbit
  rw [← hpixel, hsplit]
  unfold drawLines
  rw [List.foldl_append, List.foldl_cons]
  refine le32_congr fun k hk => drawLines_out hend _ _ fun line hl => ?_
  obtain ⟨hlo, hhi⟩ := List.mem_range'_1.mp hl
  refine ⟨by omega, Or.inl ?_⟩
  have hnext : (r + 1) * pitch ≤ line * pitch := Nat.mul_le_mul_right _ hlo
  rw [Nat.succ_mul] at hnext
  omega

section

variable {g : VbeModeInfo} {t : Tty} (h : Display g t) (hx : t.x < xLimit g t.font)
  (hy : t.y < yLimit g t.font)

include h

/-- A pixel lies in front of a run of pixels in a line or behind it, unless it is one of them. -/
theorem Display.beside {px py first line n k : Nat} (hpx : px < g.xResolution.toNat)
    (hend : first + n ≤ g.xResolution.toNat) (hk : k < 4)
    (hout : py = line → px < first ∨ first + n ≤ px) :
    pixelAddress g px py + k < pixelAddress g first line ∨
      pixelAddress g first line + 4 * n ≤ pixelAddress g px py + k := by
  unfold pixelAddress
  rw [h.pitch]
  rcases Nat.lt_trichotomy py line with hlt | heq | hgt
  · have hline : (py + 1) * (g.xResolution.toNat * 4) ≤ line * (g.xResolution.toNat * 4) :=
      Nat.mul_le_mul_right _ hlt
    rw [Nat.succ_mul] at hline
    omega
  · have := hout heq
    subst heq
    omega
  · have hline : (line + 1) * (g.xResolution.toNat * 4) ≤ py * (g.xResolution.toNat * 4) :=
      Nat.mul_le_mul_right _ hgt
    rw [Nat.succ_mul] at hline
    omega

/-- The bytes of the font are no bytes of the screen. -/
theorem Display.fontApart {a : Nat} (ha : Inside a (fontAddress, 127 * t.font.charSize)) :
    a < g.physicalBasePointer.toNat ∨
      g.physicalBasePointer.toNat + g.yResolution.toNat * (g.xResolution.toNat * 4) ≤ a := by
  have hout := h.apart.not_inside ha
  unfold Inside at hout
  simp only at hout
  omega

include hx hy

/-- The end of a line of the cell. -/
theorem Display.cellEnd {line : Nat} (hline : line < t.font.height) :
    t.x * t.font.width + t.font.width ≤ g.xResolution.toNat ∧
      t.y * t.font.height + line < g.yResolution.toNat ∧
      g.physicalBasePointer.toNat ≤
        pixelAddress g (t.x * t.font.width) (t.y * t.font.height + line) ∧
      pixelAddress g (t.x * t.font.width) (t.y * t.font.height + line) + 4 * t.font.width ≤
        g.physicalBasePointer.toNat + g.yResolution.toNat * (g.xResolution.toNat * 4) := by
  have hwidth := h.width
  have hlast := cell_lt hx (show t.font.width - 1 < t.font.width by omega)
  have hrow := line_lt hy hline
  obtain ⟨-, hend⟩ := h.address hlast hrow
  refine ⟨by omega, hrow, ?_, ?_⟩
  · unfold pixelAddress
    omega
  · unfold pixelAddress at hend ⊢
    omega

/-- The address of the cell. -/
theorem Display.cellAddress : cellAddress g t.font t =
    pixelAddress g (t.x * t.font.width) (t.y * t.font.height) := by
  obtain ⟨-, -, -, hend⟩ := h.cellEnd hx hy h.height
  have hmemory := h.memory
  have hwidth := h.width
  unfold Terminal.cellAddress
  rw [h.bytesPerPixel]
  unfold pixelAddress at hend ⊢
  rw [h.pitch, Nat.add_zero] at hend
  rw [h.pitch, Nat.mul_assoc (t.y * t.font.height)]
  exact u32_eq (by omega)

/-- A line of the cell. -/
theorem Display.cellLine (line : Nat) : Terminal.cellAddress g t.font t +
    line * (g.xResolution.toNat * 4) =
      pixelAddress g (t.x * t.font.width) (t.y * t.font.height + line) := by
  rw [h.cellAddress hx hy]
  unfold pixelAddress
  rw [h.pitch, Nat.add_mul]
  omega

omit h hx hy in
/-- A bit of a line, as it is drawn. -/
theorem fontBit_lineBits {f : Font} {m : Bytes} {c line x fontChar : Nat} (hx : x < f.width)
    (hwidth : f.width ≤ 8 * f.bytesPerCharLine)
    (hat : fontChar = fontAddress + (c - 1) * f.charSize + line * f.bytesPerCharLine) :
    (lineBits (slice m fontChar) f.bytesPerCharLine f.width)[x]? =
      some (fontBit f m c line x) := by
  rw [getElem?_lineBits _ hx hwidth, slice_apply, hat]
  rfl

/-- **A character drawn.** -/
theorem Display.drawChar {c : UInt8} (hc : 0 < c.toNat ∧ c.toNat ≤ 127) :
    CellDrawn g t (drawChar g t.font t c) (glyphPicture t c.toNat) := by
  have hmemory := h.memory
  have hline := h.cellLine hx hy
  have hends := fun line (hl : line < t.font.height) => h.cellEnd hx hy hl
  have hbytes : t.font.width ≤ 8 * t.font.bytesPerCharLine := by
    rw [bytesPerCharLine_eq]
    omega
  -- the glyph is in the font
  have hsmall : t.font.charSize < 256 := by
    rw [h.charSize]
    exact h.size
  have hlast : (c.toNat - 1) * t.font.charSize + t.font.charSize ≤ 127 * t.font.charSize := by
    rw [← Nat.succ_mul]
    exact Nat.mul_le_mul_right _ (by omega)
  have hglyph : c.toNat * t.font.charSize - t.font.charSize = (c.toNat - 1) * t.font.charSize :=
    (Nat.sub_one_mul _ _).symm
  have hle : t.font.charSize ≤ c.toNat * t.font.charSize := Nat.le_mul_of_pos_left _ hc.1
  have haddress : fontAddress = 53248 := rfl
  have hfontChar : u32 (fontAddress + sub32 (c.toNat * t.font.charSize) t.font.charSize) =
      fontAddress + (c.toNat - 1) * t.font.charSize := by
    rw [sub32_eq (by omega) hle, hglyph]
    exact u32_eq (by omega)
  have hdrawn : (Terminal.drawChar g t.font t c).mem = drawLines t.userFg t.userBg
      (Terminal.cellAddress g t.font t) (g.xResolution.toNat * 4) t.font.width
      t.font.bytesPerCharLine (fontAddress + (c.toNat - 1) * t.font.charSize) t.mem
      (List.range t.font.height) := by
    unfold Terminal.drawChar
    rw [h.bytesPerPixel, hfontChar]
    rfl
  have hroom : ∀ line < t.font.height, Terminal.cellAddress g t.font t +
      line * (g.xResolution.toNat * 4) + 4 * t.font.width ≤ 4294967296 := by
    intro line hl
    rw [hline]
    exact (hends line hl).2.2.2.trans hmemory
  have hfont : ∀ r ≤ t.font.height, ∀ a, Inside a (fontAddress, 127 * t.font.charSize) →
      drawLines t.userFg t.userBg (Terminal.cellAddress g t.font t) (g.xResolution.toNat * 4)
        t.font.width t.font.bytesPerCharLine (fontAddress + (c.toNat - 1) * t.font.charSize) t.mem
        (List.range r) a = t.mem a := by
    intro r hr a ha
    refine drawLines_out hroom _ _ fun line hl => ?_
    have hl := Nat.lt_of_lt_of_le (List.mem_range.mp hl) hr
    have hend := hends line hl
    have hapart := h.fontApart ha
    rw [hline]
    exact ⟨hl, by omega⟩
  refine ⟨⟨?_, rfl, rfl, rfl⟩, rfl, rfl, fun r hr x hx' => ?_, fun px hpx py hpy hout => ?_⟩
  · rw [hdrawn]
    exact hfont _ (Nat.le_refl _)
  · -- the bit is still in the font when the line is drawn
    have hbit := @fontBit_lineBits t.font (drawLines t.userFg t.userBg
      (Terminal.cellAddress g t.font t) (g.xResolution.toNat * 4) t.font.width
      t.font.bytesPerCharLine (fontAddress + (c.toNat - 1) * t.font.charSize) t.mem (List.range r))
      c.toNat r x _ hx' hbytes rfl
    have hpitch : 4 * t.font.width ≤ g.xResolution.toNat * 4 := by
      have := (hends r hr).1
      omega
    have hpixel := drawLines_bit hroom hpitch hr hx' hbit
    have hplace : pixelAddress g (t.x * t.font.width + x) (t.y * t.font.height + r) =
        Terminal.cellAddress g t.font t + r * (g.xResolution.toNat * 4) + 4 * x := by
      rw [hline]
      unfold pixelAddress
      omega
    have hsame : fontBit t.font (drawLines t.userFg t.userBg (Terminal.cellAddress g t.font t)
        (g.xResolution.toNat * 4) t.font.width t.font.bytesPerCharLine
        (fontAddress + (c.toNat - 1) * t.font.charSize) t.mem (List.range r)) c.toNat r x =
        fontBit t.font t.mem c.toNat r x := by
      unfold fontBit
      rw [hfont r (Nat.le_of_lt hr) _ (h.fontBytes hc hr (by rw [bytesPerCharLine_eq]; omega))]
    unfold pixel glyphPicture
    rw [hdrawn, hplace, hpixel, hsame, frame_apply hr hx']
  · unfold pixel
    rw [hdrawn]
    refine le32_congr fun k hk => drawLines_out hroom _ _ fun line hl => ⟨List.mem_range.mp hl, ?_⟩
    have hline' := List.mem_range.mp hl
    rw [hline]
    exact h.beside hpx (hends line hline').1 hk fun heq => hout (by omega) (by omega)

/-- **The cursor drawn** at the foot of its cell. -/
theorem Display.drawCursor : CellDrawn g t (Terminal.drawCursor g t.showCursor t)
    (cursorPicture t (picture g t.font t.mem t.y t.x)) := by
  have hmemory := h.memory
  have hheight := h.height
  obtain ⟨hwidth, -, hlo, hhi⟩ := h.cellEnd hx hy (Nat.sub_lt hheight Nat.one_pos)
  have hbytes : t.font.width ≤ 8 * t.font.bytesPerCharLine := by
    rw [bytesPerCharLine_eq]
    omega
  -- the last line of the character is in the font
  have hsmall : t.font.charSize < 256 := by
    rw [h.charSize]
    exact h.size
  have hlines : (t.font.height - 1) * t.font.bytesPerCharLine + t.font.bytesPerCharLine =
      t.font.charSize := by
    rw [h.charSize, Nat.mul_comm t.font.bytesPerCharLine, ← Nat.succ_mul, Nat.succ_eq_add_one,
      Nat.sub_add_cancel hheight]
  have haddress : fontAddress = 53248 := rfl
  have hfontChar : u32 (fontAddress + sub32 (127 * t.font.charSize) t.font.bytesPerCharLine) =
      fontAddress + (127 - 1) * t.font.charSize +
        (t.font.height - 1) * t.font.bytesPerCharLine := by
    rw [sub32_eq (by omega) (by omega)]
    exact (u32_eq (by omega)).trans (by omega)
  obtain ⟨foot, hfoot⟩ : ∃ foot, foot = pixelAddress g (t.x * t.font.width)
      (t.y * t.font.height + (t.font.height - 1)) := ⟨_, rfl⟩
  have hframebuffer : Terminal.cellAddress g t.font t +
      g.xResolution.toNat * sub32 t.font.height 1 * 4 = foot := by
    have hlt : t.font.height < 256 := (t.mem (fontAddress + 1)).toNat_lt
    rw [hfoot, ← h.cellLine hx hy, sub32_eq (by omega) hheight, Nat.mul_comm g.xResolution.toNat,
      Nat.mul_assoc]
  rw [← hfoot] at hlo hhi
  obtain ⟨bits, hbits⟩ : ∃ bits, (lineBits (slice t.mem (fontAddress +
      (127 - 1) * t.font.charSize + (t.font.height - 1) * t.font.bytesPerCharLine))
        t.font.bytesPerCharLine t.font.width).map (· && t.showCursor) = bits := ⟨_, rfl⟩
  have hdrawn : (Terminal.drawCursor g t.showCursor t).mem =
      drawLine (putPixel 4) 4 t.userFg t.userBg bits foot t.mem := by
    unfold Terminal.drawCursor
    simp only [h.bytesPerPixel, hfontChar, hframebuffer, hbits]
    rfl
  have hlength : bits.length ≤ t.font.width := by
    rw [← hbits, List.length_map]
    exact lineBits_length _ _ _
  have hother : ∀ a, (a < foot ∨ foot + 4 * t.font.width ≤ a) →
      (Terminal.drawCursor g t.showCursor t).mem a = t.mem a := by
    intro a ha
    rw [hdrawn]
    refine drawLine_out bits _ _ fun k hk j hj => ?_
    have hfour : pixelBytes 4 = 4 := rfl
    rw [u32_eq (by omega)]
    omega
  have houtside : ∀ px < g.xResolution.toNat, ∀ py, (py = t.y * t.font.height +
      (t.font.height - 1) → px < t.x * t.font.width ∨ t.x * t.font.width + t.font.width ≤ px) →
      pixel g (Terminal.drawCursor g t.showCursor t).mem px py = pixel g t.mem px py :=
    fun px hpx py hout => le32_congr fun k hk => hother _ (by
      rw [hfoot]
      exact h.beside hpx hwidth hk hout)
  refine ⟨⟨fun a ha => hother a ?_, rfl, rfl, rfl⟩, rfl, rfl, fun line hline x hx' => ?_,
    fun px hpx py hpy hout => houtside px hpx py fun heq => hout (by omega) (by omega)⟩
  · have hapart := h.fontApart ha
    omega
  unfold cursorPicture
  rw [frame_apply hline hx']
  by_cases hlast : line + 1 = t.font.height
  · have hthis : t.font.height - 1 = line := by omega
    have hbit : bits[x]? = some (fontBit t.font t.mem 127 line x && t.showCursor) := by
      rw [← hbits, List.getElem?_map,
        @fontBit_lineBits t.font t.mem 127 line x _ hx' hbytes (by rw [hthis])]
      rfl
    have hplace : pixelAddress g (t.x * t.font.width + x) (t.y * t.font.height + line) =
        foot + 4 * x := by
      rw [hfoot, hthis]
      unfold pixelAddress
      omega
    have hend : foot + 4 * bits.length ≤ 4294967296 := by omega
    unfold pixel
    rw [if_pos hlast, hdrawn, hplace, drawLine_pixel t.mem hend hbit]
  · rw [if_neg hlast]
    unfold picture
    rw [frame_apply hline hx']
    exact houtside _ (by omega) _ fun heq => absurd heq (by omega)

end

/-! ## 4. A line down -/

section

variable {g : VbeModeInfo} {t : Tty} (h : Display g t)

include h

/-- The screen moved up by the height of a row. -/
theorem Display.scroll (hrows : 0 < yLimit g t.font) :
    SameTools t (Terminal.scroll g t.font t) ∧
      ∀ px < g.xResolution.toNat, ∀ py < g.yResolution.toNat,
        pixel g (Terminal.scroll g t.font t).mem px py =
          if py + t.font.height < g.yResolution.toNat then pixel g t.mem px (py + t.font.height)
          else pixel g t.mem px py := by
  have hmemory := h.memory
  obtain ⟨P, hP⟩ : ∃ P, g.xResolution.toNat * 4 = P := ⟨_, rfl⟩
  have hheight : t.font.height ≤ g.yResolution.toNat := by
    have hnext := (Nat.mul_le_mul_right t.font.height hrows).trans
      (Nat.div_mul_le_self g.yResolution.toNat t.font.height)
    omega
  have hsplit : (g.yResolution.toNat - t.font.height) * P + t.font.height * P =
      g.yResolution.toNat * P := by
    rw [← Nat.add_mul, Nat.sub_add_cancel hheight]
  have hy : g.yResolution.toNat < 65536 := g.yResolution.toNat_lt
  have hlen : u32 (sub32 g.yResolution.toNat t.font.height * g.linearBytesPerScanline.toNat) =
      (g.yResolution.toNat - t.font.height) * P := by
    rw [sub32_eq (by omega) hheight, h.pitch, hP]
    rw [hP] at hmemory
    have hpos : 0 < t.font.height * P ∨ P = 0 := by
      rcases Nat.eq_zero_or_pos P with hzero | hpos
      · exact Or.inr hzero
      · exact Or.inl (Nat.mul_pos h.height hpos)
    rcases hpos with hpos | hzero
    · exact u32_eq (by omega)
    · rw [hzero]
      rfl
  have hsecond : g.xResolution.toNat * t.font.height * g.bytesPerPixel = t.font.height * P := by
    rw [h.bytesPerPixel, ← hP, Nat.mul_comm g.xResolution.toNat, Nat.mul_assoc]
  have hmem : (Terminal.scroll g t.font t).mem = blit t.mem g.physicalBasePointer.toNat
      ((g.yResolution.toNat - t.font.height) * P)
      (slice t.mem (g.physicalBasePointer.toNat + t.font.height * P)) := by
    unfold Terminal.scroll
    rw [hlen, hsecond]
  refine ⟨⟨fun a ha => ?_, rfl, rfl, rfl⟩, fun px hpx py hpy => ?_⟩
  · rw [hmem]
    have hapart := h.fontApart ha
    rw [hP] at hapart
    exact blit_out (by omega)
  · unfold pixel
    rw [hmem]
    by_cases hin : py + t.font.height < g.yResolution.toNat
    · rw [if_pos hin]
      refine le32_congr fun k hk => ?_
      have hline : (py + 1) * P ≤ (g.yResolution.toNat - t.font.height) * P :=
        Nat.mul_le_mul_right _ (by omega)
      rw [Nat.succ_mul] at hline
      unfold pixelAddress
      rw [h.pitch, hP, blit_in (by omega) (by omega), slice_apply, Nat.add_mul]
      congr 1
      omega
    · rw [if_neg hin]
      refine le32_congr fun k hk => blit_out (Or.inr ?_)
      have hline : (g.yResolution.toNat - t.font.height) * P ≤ py * P :=
        Nat.mul_le_mul_right _ (by omega)
      unfold pixelAddress
      rw [h.pitch, hP]
      omega

end

/-! ## 5. All pixels -/

/-- A run of pixels of one colour. -/
theorem fillPixels (m : Bytes) (base colour : Nat) : ∀ n, base + n * 4 ≤ 4294967296 → ∀ a,
    (List.range n).foldl (fun m j => putPixel 4 m (base + j * 4) colour) m a =
      if base ≤ a ∧ a < base + n * 4 then wordByte colour ((a - base) % 4) else m a := by
  intro n
  induction n with
  | zero => exact fun _ a => (if_neg (by omega)).symm
  | succ n ih =>
    intro hend a
    have hput : ∀ m : Bytes, putPixel 4 m (base + n * 4) colour =
        put32 m (base + n * 4) colour := by
      intro m
      show put32 m (u32 (base + n * 4)) colour = _
      rw [u32_eq (by omega)]
    rw [List.range_succ, List.foldl_append, List.foldl_cons, List.foldl_nil, hput]
    by_cases hhere : base + n * 4 ≤ a ∧ a < base + n * 4 + 4
    · have hmod : (a - base) % 4 = a - (base + n * 4) := by omega
      rw [if_pos (by omega), hmod]
      exact blit_in hhere.1 hhere.2
    · have hout : put32 ((List.range n).foldl (fun m j => putPixel 4 m (base + j * 4) colour) m)
          (base + n * 4) colour a = _ := blit_out (by omega)
      rw [hout, ih (by omega)]
      exact if_congr (by omega) rfl rfl

/-- **All pixels have the background colour.** -/
theorem Display.clear {g : VbeModeInfo} {t : Tty} (h : Display g t) :
    SameTools t (clearScreen g t) ∧ ∀ px < g.xResolution.toNat, ∀ py < g.yResolution.toNat,
      pixel g (clearScreen g t).mem px py = u32 t.userBg := by
  have hmemory := h.memory
  have hall : g.xResolution.toNat * g.yResolution.toNat * 4 =
      g.yResolution.toNat * (g.xResolution.toNat * 4) := by
    rw [Nat.mul_comm g.xResolution.toNat, Nat.mul_assoc]
  have hmem : ∀ a, (clearScreen g t).mem a = if g.physicalBasePointer.toNat ≤ a ∧
      a < g.physicalBasePointer.toNat + g.yResolution.toNat * (g.xResolution.toNat * 4) then
        wordByte t.userBg ((a - g.physicalBasePointer.toNat) % 4) else t.mem a := by
    intro a
    unfold clearScreen
    rw [h.bytesPerPixel, ← hall]
    exact fillPixels t.mem _ _ _ (by omega) a
  refine ⟨⟨fun a ha => ?_, rfl, rfl, rfl⟩, fun px hpx py hpy => ?_⟩
  · have hapart := h.fontApart ha
    rw [hmem, if_neg (by omega)]
  · obtain ⟨haddress, hend⟩ := h.address hpx hpy
    have hword := le32_put32 (m := fun _ => 0) (p := pixelAddress g px py) (v := t.userBg)
    unfold pixel
    rw [← hword]
    refine le32_congr fun k hk => ?_
    have hmod : (pixelAddress g px py + k - g.physicalBasePointer.toNat) % 4 = k := by
      rw [haddress, ← Nat.mul_assoc]
      omega
    unfold put32
    rw [hmem, if_pos (by omega), hmod, blit_add hk]

end AmateurOs.Terminal
