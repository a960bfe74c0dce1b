/-
# Glyphs drawn

What `terminal_write` draws of a font that `bdf_to_asm` has converted: pixel for pixel the bitmap of
the BDF glyph (`drawn_as_designed`).

The two share a layout.  A row is stored with its last byte first, and drawn from its last byte to
its first (`lineBits_row`); glyph `c` is at `(c - 1) * char_size`, behind the place of 31 others
that holds width and height.  The lines of a glyph are drawn one after the other; a line leaves the
others and the font alone (`drawLines_out`).

The converter has to find its lines (`Readable`), and the pixels have to be where the terminal
expects them: it moves to the next line by `x_resolution`, not by the bytes of a scan line.
-/
import AmateurOs.Fonts.Image
import AmateurOs.Terminal.Screen

namespace AmateurOs.Fonts

open AmateurOs.Lib
open AmateurOs.Terminal

/-! ## 1. Bits of a row -/

/-- Bit `x` from the left of a row in hexadecimal. -/
def rowBit (row : List UInt8) (x : Nat) : Bool :=
  ((hexDigit (row.getD (x / 4) 0)).getD 0).testBit (3 - x % 4)

theorem hexDigit_lt (c : UInt8) : (hexDigit c).getD 0 < 16 := by
  unfold hexDigit isDigit
  split
  · next h =>
    rw [Bool.and_eq_true, decide_eq_true_iff, decide_eq_true_iff] at h
    have : c.toNat ≤ 57 := h.2
    rw [Option.getD_some]
    omega
  · split
    · next h =>
      have : c.toNat ≤ 70 := h.2
      rw [Option.getD_some]
      omega
    · split
      · next h =>
        have : c.toNat ≤ 102 := h.2
        rw [Option.getD_some]
        omega
      · exact by decide

/-- **The bits of the number** that a row stands for, the first digit in front. -/
theorem testBit_hexValue (row : List UInt8) : ∀ {x : Nat}, x < 4 * row.length →
    (hexValue row).testBit (4 * row.length - 1 - x) = rowBit row x := by
  induction row using List.reverseRecOn with
  | nil => exact fun hx => absurd hx (Nat.not_lt_zero _)
  | append_singleton row d ih =>
    intro x hx
    have hlen : (row ++ [d]).length = row.length + 1 := List.length_append
    have hvalue : hexValue (row ++ [d]) = 2 ^ 4 * hexValue row + (hexDigit d).getD 0 := by
      unfold hexValue
      rw [List.foldl_append, Nat.mul_comm]
      rfl
    rw [hlen] at hx ⊢
    rw [hvalue, Nat.testBit_two_pow_mul_add _ (hexDigit_lt d)]
    unfold rowBit
    rw [List.getD_eq_getElem?_getD]
    by_cases hfront : x < 4 * row.length
    · have hrow := ih hfront
      unfold rowBit at hrow
      rw [List.getD_eq_getElem?_getD] at hrow
      rw [if_neg (by omega), List.getElem?_append_left (by omega), ← hrow]
      congr 1
      omega
    · have hlast : x / 4 = row.length := by omega
      rw [if_pos (by omega), hlast, List.getElem?_concat_length, Option.getD_some]
      congr 1
      omega

/-- The bits of a byte of a number. -/
theorem testBit_wordByte (v k : Nat) {j : Nat} (hj : j < 8) :
    (wordByte v k).toNat.testBit j = v.testBit (8 * k + j) := by
  have hpow : 256 ^ k = 2 ^ (8 * k) := by rw [Nat.pow_mul]
  have hmod : (256 : Nat) = 2 ^ 8 := rfl
  rw [wordByte_toNat, hpow, hmod, Nat.testBit_mod_two_pow, Nat.testBit_div_two_pow,
    decide_eq_true hj, Bool.true_and, Nat.add_comm]

/-- The bits of a line, by their bytes. -/
theorem getElem?_lineBits (fontChar : Bytes) {n width x : Nat} (hx : x < width)
    (hwidth : width ≤ 8 * n) : (lineBits fontChar n width)[x]? =
      some ((fontChar (n - 1 - x / 8)).toNat.testBit (7 - x % 8)) := by
  have hlen : ∀ byte ∈ (List.range n).reverse, ((List.range 8).reverse.map fun bit =>
      (fontChar byte).toNat.testBit bit).length = 8 := fun _ _ => by
    rw [List.length_map, List.length_reverse, List.length_range]
  have hbyte : (List.range n).reverse[x / 8]? = some (n - 1 - x / 8) := by
    rw [List.getElem?_reverse (by rw [List.length_range]; omega), List.length_range,
      List.getElem?_range (by omega)]
  have hbit : (List.range 8).reverse[x % 8]? = some (7 - x % 8) := by
    rw [List.getElem?_reverse (by rw [List.length_range]; omega), List.length_range,
      List.getElem?_range (by omega)]
  have hplace := getElem?_flatMap hlen hbyte (Nat.mod_lt x (by decide))
  rw [Nat.div_add_mod'] at hplace
  unfold lineBits
  rw [List.getElem?_take_of_lt hx, ← List.flatMap_def, hplace, List.getElem?_map, hbit]
  rfl

/-- **A row as it is drawn**: the bytes of its number, lowest first, give back its bits. -/
theorem lineBits_row {fontChar : Bytes} {row : List UInt8} {n width x : Nat} (hx : x < width)
    (hwidth : width ≤ 8 * n) (hlen : row.length = 2 * n)
    (hbytes : ∀ k < n, fontChar k = wordByte (hexValue row) k) :
    (lineBits fontChar n width)[x]? = some (rowBit row x) := by
  rw [getElem?_lineBits fontChar hx hwidth, hbytes _ (by omega), testBit_wordByte _ _ (by omega),
    ← testBit_hexValue row (by omega)]
  congr 2
  omega

/-! ## 2. Lines of pixels -/

section

variable {fg bg : Nat}

/-- **A pixel of a line** in a memory of 2^32 bytes. -/
theorem drawLine_pixel : ∀ {bits : List Bool} {framebuffer : Nat} (m : Bytes),
    framebuffer + 4 * bits.length ≤ 4294967296 → ∀ {x : Nat} {bit : Bool}, bits[x]? = some bit →
      le32 (drawLine (putPixel 4) 4 fg bg bits framebuffer m) (framebuffer + 4 * x) =
        u32 (if bit then fg else bg) := by
  intro bits
  induction bits with
  | nil => intro _ _ _ x bit hbit; cases hbit
  | cons b bits ih =>
    intro framebuffer m hend x bit hbit
    rw [List.length_cons] at hend
    unfold drawLine
    cases x with
    | zero =>
      obtain rfl := Option.some.inj (List.getElem?_cons_zero.symm.trans hbit)
      -- the pixels behind it leave it alone
      have hkeep := @le32_congr
        (drawLine (putPixel 4) 4 fg bg bits (framebuffer + 4)
          (putPixel 4 m framebuffer (if b then fg else bg)))
        (putPixel 4 m framebuffer (if b then fg else bg)) framebuffer framebuffer fun k hk => by
          refine drawLine_out bits _ _ fun i hi j hj => ?_
          have hfour : pixelBytes 4 = 4 := rfl
          rw [u32_eq (by omega)]
          omega
      have haddr : framebuffer + 4 * 0 = framebuffer := rfl
      have hsmall : u32 framebuffer = framebuffer := u32_eq (by omega)
      rw [haddr, hkeep]
      unfold putPixel
      rw [if_pos (by decide), hsmall, le32_put32]
    | succ x =>
      have hnext : bits[x]? = some bit := List.getElem?_cons_succ.symm.trans hbit
      have haddr : framebuffer + 4 * (x + 1) = framebuffer + 4 + 4 * x := by omega
      rw [haddr]
      exact ih _ (by omega) hnext

variable {cell pitch width height n fontChar : Nat}

/-- The lines of a glyph drawn one after the other. -/
def drawLines (fg bg cell pitch width n fontChar : Nat) (m : Bytes) (lines : List Nat) : Bytes :=
  lines.foldl (fun m line => drawLine (putPixel 4) 4 fg bg
    (lineBits (slice m (fontChar + line * n)) n width) (cell + line * pitch) m) m

/-- **Lines leave the bytes beside them alone.** -/
theorem drawLines_out {a : Nat}
    (hend : ∀ line < height, cell + line * pitch + 4 * width ≤ 4294967296) :
    ∀ (lines : List Nat) (m : Bytes), (∀ line ∈ lines, line < height ∧
      (a < cell + line * pitch ∨ cell + line * pitch + 4 * width ≤ a)) →
      drawLines fg bg cell pitch width n fontChar m lines a = m a := by
  intro lines
  induction lines with
  | nil => exact fun _ _ => rfl
  | cons line lines ih =>
    intro m h
    obtain ⟨hline, hout⟩ := h line List.mem_cons_self
    have hfour : pixelBytes 4 = 4 := rfl
    have hroom := hend line hline
    unfold drawLines at ih ⊢
    rw [List.foldl_cons, ih _ fun l hl => h l (List.mem_cons_of_mem _ hl)]
    refine drawLine_out _ _ _ fun k hk j hj => ?_
    have hk := Nat.lt_of_lt_of_le hk (lineBits_length _ _ _)
    rw [u32_eq (by omega)]
    omega

/-- **A pixel of a glyph**: the line it is in draws it, and the others leave it and the row of the
font alone. -/
theorem drawLines_pixel (hend : ∀ line < height, cell + line * pitch + 4 * width ≤ 4294967296)
    (hpitch : 4 * width ≤ pitch) (hwidth : width ≤ 8 * n) {m : Bytes} {row : List UInt8} {r x : Nat}
    (hlen : row.length = 2 * n) (hr : r < height) (hx : x < width)
    (hbytes : ∀ k < n, m (fontChar + r * n + k) = wordByte (hexValue row) k)
    (hapart : ∀ k < n, ∀ line < height, fontChar + r * n + k < cell + line * pitch ∨
      cell + line * pitch + 4 * width ≤ fontChar + r * n + k) :
    le32 (drawLines fg bg cell pitch width n fontChar m (List.range height))
      (cell + r * pitch + 4 * x) = u32 (if rowBit row x then fg else bg) := by
  have hsplit : List.range height = List.range r ++ r :: List.range' (r + 1) (height - r - 1) := by
    rw [List.range_eq_range', List.range_eq_range', ← List.range'_succ]
    have hjoin := @List.range'_append_1 0 r (height - r - 1 + 1)
    rw [Nat.zero_add] at hjoin
    rw [hjoin]
    congr 1
    omega
  have hbefore : ∀ line ∈ List.range r, line < height := fun line hl => by
    have := List.mem_range.mp hl
    omega
  -- the row is still in the font when its turn comes
  have hrow : ∀ k < n, slice (drawLines fg bg cell pitch width n fontChar m (List.range r))
      (fontChar + r * n) k = wordByte (hexValue row) k := by
    intro k hk
    rw [slice_apply, drawLines_out hend _ _ fun line hl => ⟨hbefore line hl,
      hapart k hk line (hbefore line hl)⟩, hbytes k hk]
  have hbit := lineBits_row hx hwidth hlen hrow
  have hbits := lineBits_length (slice (drawLines fg bg cell pitch width n fontChar m
    (List.range r)) (fontChar + r * n)) n width
  have hroom := hend r hr
  have hpixel := @drawLine_pixel fg bg _ (cell + r * pitch)
    (drawLines fg bg cell pitch width n fontChar m (List.range r)) (by omega) x _ hbit
  rw [← hpixel, hsplit]
  unfold drawLines
  rw [List.foldl_append, List.foldl_cons]
  refine le32_congr fun k hk => drawLines_out hend _ _ fun line hl => ?_
  obtain ⟨hlo, hhi⟩ := List.mem_range'_1.mp hl
  refine ⟨by omega, Or.inl ?_⟩
  have hnext : (r + 1) * pitch ≤ line * pitch := Nat.mul_le_mul_right _ hlo
  rw [Nat.succ_mul] at hnext
  omega

end

/-! ## 3. The property -/

/-- The font is loaded at `FONT_ADDRESS`. -/
def Loaded (image : List UInt8) (t : Tty) : Prop :=
  ∀ i (h : i < image.length), t.mem (fontAddress + i) = image[i]

/-- The font that the first two bytes announce. -/
def BdfFont.cell (f : BdfFont) : Terminal.Font := ⟨f.width.value, f.height.value⟩

/-- **The scene of a glyph**: a mode of 32 bits with two colours, the cursor in a cell of the
screen, and the frame buffer in memory, apart from the font. -/
structure Scene (f : BdfFont) (g : VbeModeInfo) (t : Tty) : Prop where
  bits : g.bitsPerPixel = 32
  colours : t.userFg < 4294967296 ∧ t.userBg < 4294967296 ∧ t.userFg ≠ t.userBg
  column : t.x < xLimit g f.cell
  row : t.y < yLimit g f.cell
  memory : g.physicalBasePointer.toNat +
    g.yResolution.toNat * g.linearBytesPerScanline.toNat ≤ 4294967296
  apart : Lib.Apart (fontAddress, 127 * f.charBytes)
    (g.physicalBasePointer.toNat, g.yResolution.toNat * g.linearBytesPerScanline.toNat)

/-- The pixel in column `px` and line `py` of the screen. -/
def pixelAddress (g : VbeModeInfo) (px py : Nat) : Nat :=
  g.physicalBasePointer.toNat + py * g.linearBytesPerScanline.toNat + px * 4

/-- Bit `x` of row `r` of the glyph with code `c`. -/
def BdfFont.pixel (f : BdfFont) (c r x : Nat) : Bool :=
  ((f.glyphs[c - 32]?.bind fun g => g.rows[r]?).map (rowBit · x)).getD false

/-- The cursor behind a character that is drawn. -/
def advance (g : VbeModeInfo) (f : Terminal.Font) (t : Tty) : Tty :=
  let t := { t with x := u32 (t.x + 1) }
  if t.x < xLimit g f then t else lineFeed g f { t with x := 0 }

/-- **The lines of the cell are where the screen has them**: the lines of the screen follow each
other in memory, or the cell has only the first of them. -/
def LinesMeet (f : BdfFont) (g : VbeModeInfo) (t : Tty) : Prop :=
  g.linearBytesPerScanline.toNat = g.xResolution.toNat * 4 ∨
    (f.height.value = 1 ∧ t.y = 0 ∧ g.xResolution.toNat * 4 ≤ g.linearBytesPerScanline.toNat)

/-- **The glyph is drawn as it was designed**: the font is converted and assembled, and when it is
loaded, `terminal_write` draws the character and moves on, and of what it draws a pixel of the cell
has the foreground colour when its bit is set, and only then. -/
def DrawnAsDesigned (path : List UInt8) (f : BdfFont) (g : VbeModeInfo) (t : Tty) (c : UInt8) :
    Prop :=
  ∃ image, fontImage path f.contents = some image ∧ (Loaded image t →
    (∀ (str : Bytes) (i : Nat), str i = c →
      writeAt g t.font str i t = some (i, advance g t.font (drawChar g t.font t c))) ∧
    ∀ r < f.height.value, ∀ x < f.width.value,
      (le32 (drawChar g t.font t c).mem (pixelAddress g (t.x * f.width.value + x)
        (t.y * f.height.value + r)) = t.userFg ↔ f.pixel c.toNat r x = true))

/-- What the loaded font says of itself. -/
theorem Loaded.font {f : BdfFont} {image : List UInt8} {t : Tty} (hi : IsImage f image)
    (h : Loaded image t) : t.font = f.cell := by
  have hbyte : ∀ {i : Nat} {b : UInt8}, image[i]? = some b → t.mem (fontAddress + i) = b := by
    intro i b hb
    obtain ⟨hlt, heq⟩ := List.getElem?_eq_some_iff.mp hb
    rw [h i hlt, heq]
  have hwidth : f.width.value < 256 := by
    have := f.width_ok
    omega
  have hheight : f.height.value < 256 := by
    have hrows : f.height.value * 1 ≤ f.height.value * rowBytes f.width.value :=
      Nat.mul_le_mul_left _ (Nat.succ_pos _)
    have := f.height_ok.2
    omega
  have hfirst : (t.mem fontAddress).toNat = f.width.value := by
    have hb : t.mem (fontAddress + 0) = _ := hbyte hi.width
    rw [Nat.add_zero] at hb
    rw [hb, wordByte_toNat, Nat.pow_zero, Nat.div_one, Nat.mod_eq_of_lt hwidth]
  have hsecond : (t.mem (fontAddress + 1)).toNat = f.height.value := by
    rw [hbyte hi.height, wordByte_toNat, Nat.pow_zero, Nat.div_one, Nat.mod_eq_of_lt hheight]
  unfold Tty.font BdfFont.cell
  rw [hfirst, hsecond]

namespace BdfFont

variable (f : BdfFont)

theorem bytesPerCharLine_cell : f.cell.bytesPerCharLine = rowBytes f.width.value := by
  have hfour := f.rowBytes_le
  exact Nat.mod_eq_of_lt (show rowBytes f.width.value < 256 by omega)

theorem charSize_cell : f.cell.charSize = f.charBytes := by
  have hsmall : f.charBytes < 256 := Nat.lt_of_le_of_lt f.height_ok.2 (by decide)
  unfold Terminal.Font.charSize
  rw [f.bytesPerCharLine_cell, Nat.mul_comm]
  exact Nat.mod_eq_of_lt hsmall

/-- The row of a glyph, and its bytes in the font. -/
theorem row_loaded {image : List UInt8} {t : Tty} (hi : IsImage f image)
    (hload : Loaded image t) {c r : Nat} (hc : 32 ≤ c ∧ c ≤ 126) (hr : r < f.height.value) :
    ∃ row : List UInt8, row.length = 2 * rowBytes f.width.value ∧
      (∀ x, f.pixel c r x = rowBit row x) ∧ ∀ k < rowBytes f.width.value,
        t.mem (fontAddress + (c - 1) * f.charBytes + r * rowBytes f.width.value + k) =
          wordByte (hexValue row) k := by
  have hcount := f.count
  obtain ⟨g, hg⟩ : ∃ g, f.glyphs[c - 32]? = some g :=
    ⟨_, List.getElem?_eq_getElem (by omega)⟩
  have hok := f.glyphs_ok g (List.mem_of_getElem? hg)
  obtain ⟨row, hrow⟩ : ∃ row, g.rows[r]? = some row :=
    ⟨_, List.getElem?_eq_getElem (by rw [hok.height]; exact hr)⟩
  refine ⟨row, (hok.rows row (List.mem_of_getElem? hrow)).1, fun x => ?_, fun k hk => ?_⟩
  · unfold pixel
    rw [hg, Option.bind_some, hrow]
    rfl
  · obtain ⟨hlt, hbyte⟩ := List.getElem?_eq_some_iff.mp (hi.glyph (c - 32) g hg r row hrow k hk)
    rw [← hbyte, ← hload _ hlt]
    have hindex : 31 + (c - 32) = c - 1 := by omega
    congr 1
    rw [hindex, ← charBytes]
    omega

end BdfFont

/-- The turn of `terminal_write` on a character that is no control character. -/
theorem writeAt_drawn {g : VbeModeInfo} {f : Terminal.Font} {t : Tty} {str : Bytes} {i : Nat}
    {c : UInt8} (hc : 32 ≤ c.toNat) (hi : str i = c) :
    writeAt g f str i t = some (i, advance g f (drawChar g f t c)) := by
  have hcontrol : ∀ {d : UInt8}, d.toNat < 32 → str i ≠ d := by
    rintro d hd rfl
    rw [← hi] at hc
    omega
  unfold writeAt
  rw [if_neg (hcontrol (by decide)), if_neg (hcontrol (by decide)), if_neg (hcontrol (by decide)),
    hi]
  rfl

/-- The address of a glyph in the font. -/
theorem BdfFont.glyphAddress (f : BdfFont) {c : UInt8} (hc : 32 ≤ c.toNat ∧ c.toNat ≤ 126) :
    u32 (fontAddress + sub32 (c.toNat * f.charBytes) f.charBytes) =
      fontAddress + (c.toNat - 1) * f.charBytes ∧
    (c.toNat - 1) * f.charBytes + f.charBytes ≤ 126 * f.charBytes := by
  have hsize : f.charBytes < 256 := Nat.lt_of_le_of_lt f.height_ok.2 (by decide)
  have hglyph : c.toNat * f.charBytes - f.charBytes = (c.toNat - 1) * f.charBytes :=
    (Nat.sub_one_mul _ _).symm
  have hbelow : (c.toNat - 1) * f.charBytes + f.charBytes ≤ 126 * f.charBytes := by
    rw [← Nat.succ_mul]
    exact Nat.mul_le_mul_right _ (by omega)
  have hle : f.charBytes ≤ c.toNat * f.charBytes := Nat.le_mul_of_pos_left _ (by omega)
  have haddress : fontAddress = 53248 := rfl
  refine ⟨?_, hbelow⟩
  rw [sub32_eq (by omega) hle, hglyph]
  exact u32_eq (by omega)

section

variable {f : BdfFont} {g : VbeModeInfo} {t : Tty} (h : Scene f g t)

include h

theorem Scene.bytesPerPixel : g.bytesPerPixel = 4 := by
  unfold VbeModeInfo.bytesPerPixel
  rw [h.bits]
  rfl

/-- The cell ends in a line of the screen. -/
theorem Scene.column_le : t.x * f.width.value + f.width.value ≤ g.xResolution.toNat := by
  rw [← Nat.succ_mul]
  exact (Nat.mul_le_mul_right _ h.column).trans (Nat.div_mul_le_self _ _)

/-- A line of the cell ends on the screen, where the lines follow each other. -/
theorem Scene.line_le {line : Nat} (hline : line < f.height.value) :
    (t.y * f.height.value + line) * (g.xResolution.toNat * 4) +
        (t.x * f.width.value + f.width.value) * 4 ≤
      g.yResolution.toNat * (g.xResolution.toNat * 4) := by
  have hrow : t.y * f.height.value + f.height.value ≤ g.yResolution.toNat := by
    rw [← Nat.succ_mul]
    exact (Nat.mul_le_mul_right _ h.row).trans (Nat.div_mul_le_self _ _)
  calc (t.y * f.height.value + line) * (g.xResolution.toNat * 4) +
        (t.x * f.width.value + f.width.value) * 4
      ≤ (t.y * f.height.value + line) * (g.xResolution.toNat * 4) + g.xResolution.toNat * 4 :=
        Nat.add_le_add_left (Nat.mul_le_mul_right _ h.column_le) _
    _ = (t.y * f.height.value + line + 1) * (g.xResolution.toNat * 4) := (Nat.succ_mul _ _).symm
    _ ≤ g.yResolution.toNat * (g.xResolution.toNat * 4) := Nat.mul_le_mul_right _ (by omega)

variable (hlines : LinesMeet f g t)

include hlines

/-- What is drawn on lies in the frame buffer, and so in memory and apart from the font. -/
theorem Scene.drawn : g.physicalBasePointer.toNat +
      g.yResolution.toNat * (g.xResolution.toNat * 4) ≤ 4294967296 ∧
    Lib.Apart (fontAddress, 127 * f.charBytes)
      (g.physicalBasePointer.toNat, g.yResolution.toNat * (g.xResolution.toNat * 4)) := by
  have hbuffer : g.yResolution.toNat * (g.xResolution.toNat * 4) ≤
      g.yResolution.toNat * g.linearBytesPerScanline.toNat := by
    refine Nat.mul_le_mul_left _ ?_
    rcases hlines with hline | ⟨-, -, hline⟩ <;> omega
  exact ⟨(Nat.add_le_add_left hbuffer _).trans h.memory,
    h.apart.imp id fun happart => (Nat.add_le_add_left hbuffer _).trans happart⟩

/-- The address of the cell. -/
theorem Scene.cell_eq : cellAddress g f.cell t = g.physicalBasePointer.toNat +
    t.y * f.height.value * (g.xResolution.toNat * 4) + t.x * f.width.value * 4 := by
  have hmemory := (h.drawn hlines).1
  have hfirst := h.line_le f.height_ok.1
  have hwidth := f.width_pos
  unfold cellAddress
  rw [h.bytesPerPixel]
  show u32 (_ + t.y * f.height.value * g.xResolution.toNat * 4 + t.x * f.width.value * 4) = _
  rw [Nat.mul_assoc (t.y * f.height.value)]
  rw [Nat.add_zero, Nat.add_mul] at hfirst
  exact u32_eq (by omega)

/-- Where a line of the cell is drawn. -/
theorem Scene.line_bounds {line : Nat} (hline : line < f.height.value) :
    g.physicalBasePointer.toNat ≤
      cellAddress g f.cell t + line * (g.xResolution.toNat * 4) ∧
    cellAddress g f.cell t + line * (g.xResolution.toNat * 4) + 4 * f.width.value ≤
      g.physicalBasePointer.toNat + g.yResolution.toNat * (g.xResolution.toNat * 4) := by
  have hin := h.line_le hline
  rw [Nat.add_mul, Nat.add_mul] at hin
  rw [h.cell_eq hlines]
  omega

/-- Where a pixel of the cell is on the screen, it is drawn. -/
theorem Scene.pixel_eq {r : Nat} (hr : r < f.height.value) (x : Nat) :
    pixelAddress g (t.x * f.width.value + x) (t.y * f.height.value + r) =
      cellAddress g f.cell t + r * (g.xResolution.toNat * 4) + 4 * x := by
  unfold pixelAddress
  rw [h.cell_eq hlines]
  rcases hlines with hline | ⟨hone, hfirst, -⟩
  · rw [hline, Nat.add_mul, Nat.add_mul]
    omega
  · obtain rfl : r = 0 := by omega
    simp only [hfirst, Nat.zero_mul, Nat.add_zero, Nat.add_mul]
    omega

end

/-- **Fonts are drawn as they were designed**, when the converter finds its lines and the lines of
the cell are where the screen has them. -/
theorem drawn_as_designed (path : List UInt8) (f : BdfFont) (g : VbeModeInfo) (t : Tty)
    (c : UInt8) (hscene : Scene f g t) (hc : 32 ≤ c.toNat ∧ c.toNat ≤ 126) (hread : f.Readable)
    (hlines : LinesMeet f g t) : DrawnAsDesigned path f g t c := by
  obtain ⟨image, himage, hlayout⟩ := f.fontImage_readable path hread
  refine ⟨image, himage, fun hload => ⟨fun str i hi => writeAt_drawn hc.1 hi, fun r hr x hx => ?_⟩⟩
  obtain ⟨row, hlen, hpixel, hbytes⟩ := f.row_loaded hlayout hload hc hr
  obtain ⟨hfg, hbg, hdistinct⟩ := hscene.colours
  obtain ⟨hmemory, hapart⟩ := hscene.drawn hlines
  obtain ⟨hglyph, hbelow⟩ := f.glyphAddress hc
  have hdrawn : (drawChar g t.font t c).mem = drawLines t.userFg t.userBg (cellAddress g f.cell t)
      (g.xResolution.toNat * 4) f.width.value (rowBytes f.width.value)
        (fontAddress + (c.toNat - 1) * f.charBytes) t.mem (List.range f.height.value) := by
    rw [hload.font hlayout]
    unfold drawChar
    rw [hscene.bytesPerPixel, f.charSize_cell, f.bytesPerCharLine_cell, hglyph]
    rfl
  have hwidth : f.width.value ≤ 8 * rowBytes f.width.value := by
    unfold rowBytes
    omega
  have hrow : r * rowBytes f.width.value + rowBytes f.width.value ≤ f.charBytes := by
    rw [← Nat.succ_mul]
    exact Nat.mul_le_mul_right _ hr
  have hpitch : 4 * f.width.value ≤ g.xResolution.toNat * 4 := by
    rw [Nat.mul_comm]
    exact Nat.mul_le_mul_right 4 ((Nat.le_add_left _ _).trans hscene.column_le)
  rw [hdrawn, hscene.pixel_eq hlines hr, drawLines_pixel
    (fun line hl => (hscene.line_bounds hlines hl).2.trans hmemory) hpitch hwidth hlen hr hx hbytes
      fun k hk line hl => ?_, hpixel]
  · cases rowBit row x with
    | false =>
      rw [if_neg Bool.false_ne_true, u32_eq hbg]
      exact iff_of_false hdistinct.symm Bool.false_ne_true
    | true =>
      rw [if_pos rfl, u32_eq hfg]
      exact iff_of_true rfl rfl
  · obtain ⟨hlo, hhi⟩ := hscene.line_bounds hlines hl
    unfold Lib.Apart at hapart
    omega

/-! ## 4. A font of blocks -/

/-- A digit of a number. -/
def digitChar (n : Nat) : UInt8 := UInt8.ofNat (48 + n % 10)

theorem isDigit_digitChar (n : Nat) : isDigit (digitChar n) = true := by
  have hall : ∀ d < 10, isDigit (UInt8.ofNat (48 + d)) = true := by decide
  exact hall _ (Nat.mod_lt _ (by decide))

/-- A number below 1000, in two or three digits. -/
def smallNumeral (n : Nat) : Numeral where
  chars := if n < 100 then [digitChar (n / 10), digitChar n]
    else [digitChar (n / 100), digitChar (n / 10), digitChar n]
  nonempty := by split <;> exact List.cons_ne_nil _ _
  digits := fun c hc => by
    split at hc <;> simp only [List.mem_cons, List.not_mem_nil, or_false] at hc
    · rcases hc with rfl | rfl <;> exact isDigit_digitChar _
    · rcases hc with rfl | rfl | rfl <;> exact isDigit_digitChar _
  short := by split <;> simp

/-- A glyph of one row, all of it set. -/
def blockGlyph (i : Nat) : Glyph where
  gap := []
  name := if i = 0 then text "space" else text "block"
  code := smallNumeral (32 + i)
  properties := []
  rows := [text "FF"]

theorem blockGlyph_ok (i : Nat) : (blockGlyph i).WellFormed 1 2 := by
  refine ⟨fun l hl => absurd hl List.not_mem_nil, ?_, fun l hl => absurd hl List.not_mem_nil, rfl,
    fun row hrow => ?_⟩
  · have hwords : (IsWord (text "space") ∧ (text "space").length < asciiNameSize) ∧
        IsWord (text "block") ∧ (text "block").length < asciiNameSize := by
      unfold IsWord
      decide +kernel
    unfold blockGlyph
    split
    · exact hwords.1
    · exact hwords.2
  · obtain rfl := List.mem_singleton.mp hrow
    decide +kernel

/-- The font of blocks of 8 pixels, with some lines in front. -/
def blockFont (prologue : List (List UInt8))
    (hprologue : ∀ l ∈ prologue, newline ∉ l ∧ ¬ text "FONTBOUNDINGBOX" <+: l) : BdfFont where
  prologue := prologue
  width := ⟨text "8", by decide, by decide +kernel, by decide⟩
  height := ⟨text "1", by decide, by decide +kernel, by decide⟩
  box := text " 0 0"
  header := [text "CHARS 96"]
  glyphs := (List.range 95).map blockGlyph
  endGap := []
  endName := text "delete"
  endCode := smallNumeral 127
  tail := []
  prologue_ok := hprologue
  width_ok := by decide
  height_ok := by decide
  box_ok := by decide +kernel
  header_ok := by decide +kernel
  glyphs_ok := fun g hg => by
    obtain ⟨i, -, rfl⟩ := List.mem_map.mp hg
    exact blockGlyph_ok i
  codes := by decide +kernel
  space := ⟨blockGlyph 0, ((List.range 94).map Nat.succ).map blockGlyph,
    congrArg (List.map blockGlyph) List.range_succ_eq_map, rfl, rfl⟩
  endGap_ok := fun l hl => absurd hl List.not_mem_nil
  endName_ok := by
    unfold IsWord
    decide +kernel
  endCode_ok := by decide

theorem blockFont_readable :
    (blockFont [] fun _ h => absurd h List.not_mem_nil).Readable := by
  refine ⟨.nil, ?_, fun g hg => ?_, fun g hg => ?_, .nil, by decide⟩
  · exact passedOver_short (by decide +kernel) (by decide +kernel)
  · obtain ⟨i, -, rfl⟩ := List.mem_map.mp hg
    exact .nil
  · obtain ⟨i, -, rfl⟩ := List.mem_map.mp hg
    exact .nil

/-- A comment longer than the buffer: at character 255 it goes on like the line that the converter
looks for. -/
def longComment : List UInt8 :=
  text "COMMENT " ++ List.replicate 247 (char 'x') ++ text "FONTBOUNDINGBOX 17 1"

theorem longComment_ok :
    ∀ l ∈ [longComment], newline ∉ l ∧ ¬ text "FONTBOUNDINGBOX" <+: l := by decide +kernel

/-- The screen that the font of blocks is drawn on. -/
def blockScreen (mem : Bytes) : Tty :=
  { freshTerminal with userFg := 0x00DDDDDD, userBg := 0x00222222, mem := mem }

/-- The font is converted to the two bytes of a size that it does not have. -/
theorem fontImage_long :
    fontImage (text "x.bdf") (blockFont [longComment] longComment_ok).contents = some [17, 1] := by
  decide +kernel

/-- The cell of every font of blocks, and the bytes of its characters. -/
theorem blockFont_cell {prologue : List (List UInt8)}
    (hprologue : ∀ l ∈ prologue, newline ∉ l ∧ ¬ text "FONTBOUNDINGBOX" <+: l) :
    (blockFont prologue hprologue).cell = ⟨8, 1⟩ ∧
      (blockFont prologue hprologue).charBytes = 1 := by
  have hwidth : (blockFont prologue hprologue).width.value = 8 :=
    (by decide +kernel : decimalValue (text "8") = 8)
  have hheight : (blockFont prologue hprologue).height.value = 1 :=
    (by decide +kernel : decimalValue (text "1") = 1)
  unfold BdfFont.cell BdfFont.charBytes
  rw [hwidth, hheight]
  exact ⟨rfl, rfl⟩

theorem blockFont_scene {prologue : List (List UInt8)}
    (hprologue : ∀ l ∈ prologue, newline ∉ l ∧ ¬ text "FONTBOUNDINGBOX" <+: l) (mem : Bytes) :
    Scene (blockFont prologue hprologue) mode1024 (blockScreen mem) := by
  obtain ⟨hcell, hbytes⟩ := blockFont_cell hprologue
  refine ⟨rfl, ⟨?_, ?_, ?_⟩, ?_, ?_, by decide, ?_⟩
  · exact (by decide : 0x00DDDDDD < 4294967296)
  · exact (by decide : 0x00222222 < 4294967296)
  · exact (by decide : 0x00DDDDDD ≠ 0x00222222)
  · rw [hcell]
    exact (by decide : 0 < xLimit mode1024 ⟨8, 1⟩)
  · rw [hcell]
    exact (by decide : 0 < yLimit mode1024 ⟨8, 1⟩)
  · rw [hbytes]
    exact Or.inl (by decide)

/-- A memory with an image at `FONT_ADDRESS`. -/
def loadedFont (image : List UInt8) : Bytes := fun a => image.getD (a - fontAddress) 0

theorem loaded_loadedFont (image : List UInt8) : Loaded image (blockScreen (loadedFont image)) := by
  intro i hi
  show image.getD (fontAddress + i - fontAddress) 0 = image[i]
  rw [Nat.add_sub_cancel_left, List.getD_eq_getElem _ _ hi]

/-- The letter A of the font of blocks: its eight pixels. -/
theorem drawn_block : ∃ image : List UInt8,
    fontImage (text "x.bdf") (blockFont [] fun _ h => absurd h List.not_mem_nil).contents =
        some image ∧
      let t := blockScreen (loadedFont image)
      ∀ x < 8, le32 (drawChar mode1024 t.font t 65).mem (pixelAddress mode1024 x 0) =
        0x00DDDDDD := by
  obtain ⟨image, himage, -⟩ := (blockFont [] fun _ h => absurd h List.not_mem_nil).fontImage_readable
    (text "x.bdf") blockFont_readable
  obtain ⟨image', himage', hdrawn⟩ := drawn_as_designed (text "x.bdf")
    (blockFont [] fun _ h => absurd h List.not_mem_nil) mode1024 (blockScreen (loadedFont image)) 65
    (blockFont_scene (fun _ h => absurd h List.not_mem_nil) _) (by decide) blockFont_readable
    (Or.inl (by decide))
  obtain rfl := Option.some.inj (himage.symm.trans himage')
  refine ⟨image, himage, fun x hx => ?_⟩
  have hset : ∀ x < 8, (blockFont [] fun _ h => absurd h List.not_mem_nil).pixel
      (65 : UInt8).toNat 0 x = true := by decide +kernel
  have hwidth : (blockFont [] fun _ h => absurd h List.not_mem_nil).width.value = 8 :=
    (by decide +kernel : decimalValue (text "8") = 8)
  have hpixel := ((hdrawn (loaded_loadedFont image)).2 0 (by decide) x (hwidth ▸ hx)).mpr (hset x hx)
  have hplace : pixelAddress mode1024 ((blockScreen (loadedFont image)).x *
      (blockFont [] fun _ h => absurd h List.not_mem_nil).width.value + x)
      ((blockScreen (loadedFont image)).y *
        (blockFont [] fun _ h => absurd h List.not_mem_nil).height.value + 0) =
        pixelAddress mode1024 x 0 := by
    rw [show (blockScreen (loadedFont image)).x = 0 from rfl,
      show (blockScreen (loadedFont image)).y = 0 from rfl, Nat.zero_mul, Nat.zero_mul, Nat.zero_add,
      Nat.add_zero]
  rw [← hplace]
  exact hpixel

/-- **A long comment** in front of the size is taken for it: of the letter A no pixel is drawn. -/
theorem drawn_misread : ¬ ∀ (path : List UInt8) (f : BdfFont) (g : VbeModeInfo) (t : Tty)
    (c : UInt8), Scene f g t → 32 ≤ c.toNat ∧ c.toNat ≤ 126 → DrawnAsDesigned path f g t c := by
  intro hall
  let loaded : Bytes := fun a =>
    if a = fontAddress then 17 else if a = fontAddress + 1 then 1 else 0
  obtain ⟨image, himage, hdrawn⟩ := hall (text "x.bdf") (blockFont [longComment] longComment_ok)
    mode1024 (blockScreen loaded) 65 (blockFont_scene longComment_ok loaded) (by decide)
  obtain rfl := Option.some.inj (himage.symm.trans fontImage_long)
  have hload : Loaded [17, 1] (blockScreen loaded) := by
    intro i hi
    match i, hi with
    | 0, _ => rfl
    | 1, _ => rfl
  have hpixel := (hdrawn hload).2 0 (by decide) 0 (by decide)
  have hset : (blockFont [longComment] longComment_ok).pixel (65 : UInt8).toNat 0 0 = true := by
    decide +kernel
  have hdark : le32 (drawChar mode1024 (blockScreen loaded).font (blockScreen loaded) 65).mem
      (pixelAddress mode1024 0 0) ≠ 0x00DDDDDD := by
    decide +kernel
  exact hdark (hpixel.mpr hset)

end AmateurOs.Fonts
