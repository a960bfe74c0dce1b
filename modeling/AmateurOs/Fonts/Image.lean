/-
# The font in memory

What the assembler makes of the converted font: width and height, the place of 31 glyphs less these
two bytes, the glyphs 32 to 126, the cursor line as glyph 127, and zeros up to a multiple of a
sector.  A row of a glyph is defined as one number, so its bytes lie in memory with the last one
first (`IsImage`).
-/
import AmateurOs.Fonts.Bdf

namespace AmateurOs.Fonts

open AmateurOs.Lib
open AmateurOs.Terminal (char text isDigit)

/-! ## 1. Blocks of one length -/

/-- **A place in a row of blocks** of one length. -/
theorem getElem?_flatMap {α β : Type} {f : α → List β} {n : Nat} : ∀ {l : List α},
    (∀ a ∈ l, (f a).length = n) → ∀ {i j : Nat} {a : α}, l[i]? = some a → j < n →
      (l.flatMap f)[i * n + j]? = (f a)[j]? := by
  intro l
  induction l with
  | nil => intro _ i j a ha; cases ha
  | cons b l ih =>
    intro hlen i j a ha hj
    have hb := hlen b List.mem_cons_self
    rw [List.flatMap_cons]
    cases i with
    | zero =>
      obtain rfl := Option.some.inj (List.getElem?_cons_zero.symm.trans ha)
      rw [Nat.zero_mul, Nat.zero_add, List.getElem?_append_left (hb ▸ hj)]
    | succ i =>
      have hnext : l[i]? = some a := List.getElem?_cons_succ.symm.trans ha
      have hplace : (i + 1) * n + j - n = i * n + j := by
        rw [Nat.succ_mul]
        omega
      rw [List.getElem?_append_right (by rw [hb, Nat.succ_mul]; omega), hb, hplace]
      exact ih (fun x hx => hlen x (List.mem_cons_of_mem _ hx)) hnext hj

theorem length_flatMap_blocks {α β : Type} {f : α → List β} {n : Nat} : ∀ {l : List α},
    (∀ a ∈ l, (f a).length = n) → (l.flatMap f).length = l.length * n := by
  intro l
  induction l with
  | nil => exact fun _ => (Nat.zero_mul n).symm
  | cons a l ih =>
    intro hlen
    rw [List.flatMap_cons, List.length_append, hlen a List.mem_cons_self,
      ih fun x hx => hlen x (List.mem_cons_of_mem _ hx), List.length_cons, Nat.succ_mul]
    omega

/-! ## 2. Assembled lines -/

/-- The bytes of a line that does not depend on its address. -/
def AsmLine.bytes (l : AsmLine) : List UInt8 := (l.assemble 0).getD []

/-- A line that assembles at every address to the same bytes. -/
def AsmLine.Fixed (l : AsmLine) : Prop := ∀ size, l.assemble size = some l.bytes

/-- The text of a line has three characters at least for four bytes. -/
def AsmLine.Roomy (l : AsmLine) : Prop := 4 * l.bytes.length ≤ 3 * l.render.length

theorem roomy_lines : ∀ {lines : List AsmLine}, (∀ l ∈ lines, l.Roomy) →
    4 * (lines.flatMap AsmLine.bytes).length ≤ 3 * (renderAll lines).length := by
  intro lines
  induction lines with
  | nil => exact fun _ => Nat.le_refl _
  | cons l lines ih =>
    intro h
    have hl : 4 * l.bytes.length ≤ 3 * l.render.length := h l List.mem_cons_self
    have hlines := ih fun l' hl' => h l' (List.mem_cons_of_mem _ hl')
    unfold renderAll at *
    rw [List.flatMap_cons, List.flatMap_cons, List.length_append, List.length_append]
    omega

theorem length_littleEndian (n v : Nat) : (littleEndian n v).length = n := by
  unfold littleEndian
  rw [List.length_map, List.length_range]

theorem AsmLine.fixed {l : AsmLine} {bytes : List UInt8}
    (h : ∀ size, l.assemble size = some bytes) : l.Fixed ∧ l.bytes = bytes := by
  have hbytes : l.bytes = bytes := by
    unfold AsmLine.bytes
    rw [h]
    rfl
  exact ⟨fun size => by rw [h, hbytes], hbytes⟩

theorem assemble_fixed : ∀ {lines : List AsmLine} {rest : List AsmLine} {tail : List UInt8}
    {size : Nat}, (∀ l ∈ lines, l.Fixed) →
    assemble (size + (lines.flatMap AsmLine.bytes).length) rest = some tail →
      assemble size (lines ++ rest) = some (lines.flatMap AsmLine.bytes ++ tail) := by
  intro lines
  induction lines with
  | nil => exact fun _ h => h
  | cons l lines ih =>
    intro rest tail size hfixed hrest
    rw [List.flatMap_cons, List.length_append, ← Nat.add_assoc] at hrest
    rw [List.cons_append, assemble, hfixed l List.mem_cons_self size, Option.bind_eq_bind,
      Option.bind_some, ih (fun l' hl' => hfixed l' (List.mem_cons_of_mem _ hl')) hrest,
      List.flatMap_cons, List.append_assoc]
    rfl

/-- A line of digits, with its newline. -/
theorem bitmap_fixed {width : DefineWidth} {row : List UInt8} (hne : row ≠ [])
    (hdigits : ∀ c ∈ row, (hexDigit c).isSome = true) : (rowLine width row).Fixed ∧
      (rowLine width row).bytes = littleEndian width.bytes (hexValue row) ∧
        (rowLine width row).Roomy := by
  have hall : ∀ c ∈ row, decide (c ≠ newline) = true := fun c hc => decide_eq_true fun heq => by
    rw [heq] at hc
    exact absurd (hdigits _ hc) (by decide)
  have htake : (row ++ [newline]).takeWhile (· ≠ newline) = row := by
    rw [List.takeWhile_append_of_pos hall, List.takeWhile_cons_of_neg (by simp), List.append_nil]
  have hnumber : hexNumber (row ++ [newline]) = some (hexValue row) := by
    unfold hexNumber
    simp only [htake]
    exact if_pos ⟨hne, List.all_eq_true.mpr hdigits⟩
  obtain ⟨hfixed, hbytes⟩ := @AsmLine.fixed (rowLine width row)
    (littleEndian width.bytes (hexValue row))
    fun _ => congrArg (Option.map (littleEndian width.bytes)) hnumber
  refine ⟨hfixed, hbytes, ?_⟩
  have hwidth : width.text.length = 2 ∧ width.bytes ≤ 4 := by cases width <;> decide
  have hbegins : (text " 0x").length = 3 := by decide
  have hpos : 0 < row.length := List.length_pos_of_ne_nil hne
  have hrender : (rowLine width row).render.length = 2 + 3 + (row.length + 1) := by
    show (width.text ++ text " 0x" ++ (row ++ [newline])).length = _
    rw [List.length_append, List.length_append, hwidth.1, hbegins]
    exact congrArg _ List.length_append
  unfold AsmLine.Roomy
  rw [hbytes, hrender, length_littleEndian]
  omega

theorem getElem?_littleEndian {n v k : Nat} (h : k < n) :
    (littleEndian n v)[k]? = some (wordByte v k) := by
  unfold littleEndian
  rw [List.getElem?_map, List.getElem?_range h]
  rfl

/-- The rows of a glyph, assembled. -/
def Glyph.bytes (width : DefineWidth) (g : Glyph) : List UInt8 :=
  g.rows.flatMap fun row => littleEndian width.bytes (hexValue row)

theorem Glyph.asmLines_fixed (width : DefineWidth) {height rowDigits : Nat} {g : Glyph}
    (h : g.WellFormed height rowDigits) (hpos : 0 < rowDigits) :
    (∀ l ∈ g.asmLines width, l.Fixed ∧ l.Roomy) ∧
      (g.asmLines width).flatMap AsmLine.bytes = g.bytes width := by
  have hrow : ∀ row ∈ g.rows, (rowLine width row).Fixed ∧
      (rowLine width row).bytes = littleEndian width.bytes (hexValue row) ∧
        (rowLine width row).Roomy := fun row hr => by
    obtain ⟨hlen, hdigits⟩ := h.rows row hr
    exact bitmap_fixed (fun hnil => by rw [hnil] at hlen; exact absurd hlen (Nat.ne_of_lt hpos))
      hdigits
  constructor
  · intro l hl
    rcases List.mem_cons.mp hl with rfl | hl
    · exact ⟨fun _ => rfl, Nat.zero_le _⟩
    · obtain ⟨row, hr, rfl⟩ := List.mem_map.mp hl
      exact ⟨(hrow row hr).1, (hrow row hr).2.2⟩
  · unfold Glyph.asmLines Glyph.bytes
    rw [List.flatMap_cons, List.flatMap_map]
    exact List.flatMap_congr fun row hr => (hrow row hr).2.1

theorem Glyph.length_bytes (width : DefineWidth) {height rowDigits : Nat} {g : Glyph}
    (h : g.WellFormed height rowDigits) : (g.bytes width).length = height * width.bytes := by
  unfold Glyph.bytes
  rw [length_flatMap_blocks fun _ _ => length_littleEndian _ _, h.height]

/-- The digits of a row of the cursor. -/
def cursorRow (fontWidth fontHeight i : Nat) : List UInt8 :=
  (if (i : Int) < (fontHeight : Int) - 1 then text "00000000" else text "FFFFFFFF").take
    (widthBytes fontWidth * 2).toNat

theorem cursorLines_eq (width : DefineWidth) (fontWidth fontHeight : Nat) :
    cursorLines width fontWidth fontHeight = .comment (text ";; Cursor Line 127\n") ::
      (List.range fontHeight).map fun i => rowLine width (cursorRow fontWidth fontHeight i) := rfl

theorem cursorRow_ok {fontWidth fontHeight i : Nat} (h : 1 ≤ fontWidth) :
    cursorRow fontWidth fontHeight i ≠ [] ∧
      ∀ c ∈ cursorRow fontWidth fontHeight i, (hexDigit c).isSome = true := by
  have hdigits : (∀ c ∈ text "00000000", (hexDigit c).isSome = true) ∧
      ∀ c ∈ text "FFFFFFFF", (hexDigit c).isSome = true := by decide +kernel
  have hlen : (text "00000000").length = 8 ∧ (text "FFFFFFFF").length = 8 := by decide
  have hpos : 0 < (widthBytes fontWidth * 2).toNat := by
    rw [widthBytes_eq h]
    unfold rowBytes
    omega
  unfold cursorRow
  constructor
  · intro hnil
    have hzero := congrArg List.length hnil
    rw [List.length_take] at hzero
    split at hzero <;> simp only [hlen, List.length_nil] at hzero <;> omega
  · intro c hc
    have hmem := List.mem_of_mem_take hc
    split at hmem
    · exact hdigits.1 c hmem
    · exact hdigits.2 c hmem

/-- The cursor line takes the place of a glyph. -/
theorem cursorLines_fixed (width : DefineWidth) {fontWidth : Nat} (fontHeight : Nat)
    (h : 1 ≤ fontWidth) : (∀ l ∈ cursorLines width fontWidth fontHeight, l.Fixed ∧ l.Roomy) ∧
      ((cursorLines width fontWidth fontHeight).flatMap AsmLine.bytes).length =
        fontHeight * width.bytes := by
  have hrow := fun i : Nat => @bitmap_fixed width (cursorRow fontWidth fontHeight i)
    (cursorRow_ok h).1 (cursorRow_ok h).2
  rw [cursorLines_eq]
  constructor
  · intro l hl
    rcases List.mem_cons.mp hl with rfl | hl
    · exact ⟨fun _ => rfl, Nat.zero_le _⟩
    · obtain ⟨i, -, rfl⟩ := List.mem_map.mp hl
      exact ⟨(hrow i).1, (hrow i).2.2⟩
  · rw [List.flatMap_cons, List.flatMap_map, List.length_append]
    have hblocks : ((List.range fontHeight).flatMap fun i =>
        (rowLine width (cursorRow fontWidth fontHeight i)).bytes).length =
          (List.range fontHeight).length * width.bytes :=
      length_flatMap_blocks fun i _ => by rw [(hrow i).2.1, length_littleEndian]
    rw [hblocks, List.length_range]
    exact Nat.zero_add _

/-! ## 3. The image -/

/-- **The layout of the font in memory.** -/
structure IsImage (f : BdfFont) (image : List UInt8) : Prop where
  width : image[0]? = some (wordByte f.width.value 0)
  height : image[1]? = some (wordByte f.height.value 0)
  glyph : ∀ i g, f.glyphs[i]? = some g → ∀ r row, g.rows[r]? = some row →
    ∀ k < rowBytes f.width.value,
      image[(31 + i) * (f.height.value * rowBytes f.width.value) +
        (r * rowBytes f.width.value + k)]? = some (wordByte (hexValue row) k)

/-- The number of a numeral, for the assembler. -/
theorem Numeral.decimalNumber_chars (n : Numeral) : decimalNumber n.chars = some n.value :=
  if_pos ⟨n.nonempty, List.all_eq_true.mpr n.digits⟩

namespace BdfFont

variable (f : BdfFont)

/-- The bytes of one glyph. -/
def charBytes : Nat := f.height.value * rowBytes f.width.value

theorem charBytes_pos : 1 ≤ f.charBytes :=
  Nat.mul_pos f.height_ok.1 (Nat.succ_pos _)

/-- The bytes in front of the last padding. -/
def charsImage (width : DefineWidth) : List UInt8 :=
  [wordByte f.width.value 0, wordByte f.height.value 0] ++
    (List.replicate (31 * f.charBytes - 2) 0 ++ (f.glyphs.flatMap (Glyph.bytes width) ++
      (cursorLines width f.width.value f.height.value).flatMap AsmLine.bytes))

theorem width_pos : 1 ≤ f.width.value := by
  have := f.width_ok
  omega

theorem digits_pos : 0 < 2 * rowBytes f.width.value := Nat.mul_pos (by decide) (Nat.succ_pos _)

theorem count : f.glyphs.length = 95 := by
  have hlength := congrArg List.length f.codes
  rwa [List.length_map, List.length_range'] at hlength

/-- The lines of the glyphs, assembled. -/
theorem glyphs_bytes (width : DefineWidth) :
    (f.glyphs.flatMap (Glyph.asmLines width)).flatMap AsmLine.bytes =
      f.glyphs.flatMap (Glyph.bytes width) := by
  rw [List.flatMap_assoc]
  exact List.flatMap_congr fun g hg => (g.asmLines_fixed width (f.glyphs_ok g hg) f.digits_pos).2

section

variable {width : DefineWidth} (hwidth : width.bytes = rowBytes f.width.value)

include hwidth

theorem glyph_length {g : Glyph} (hg : g ∈ f.glyphs) : (g.bytes width).length = f.charBytes := by
  rw [Glyph.length_bytes width (f.glyphs_ok g hg), hwidth]
  rfl

theorem glyphs_length : (f.glyphs.flatMap (Glyph.bytes width)).length = 95 * f.charBytes := by
  rw [length_flatMap_blocks fun g hg => f.glyph_length hwidth hg, f.count]

theorem cursor_length : ((cursorLines width f.width.value f.height.value).flatMap
    AsmLine.bytes).length = f.charBytes := by
  rw [(cursorLines_fixed width f.height.value f.width_pos).2, hwidth]
  rfl

theorem length_charsImage : (f.charsImage width).length = 127 * f.charBytes := by
  have hpos := f.charBytes_pos
  unfold charsImage
  rw [List.length_append, List.length_append, List.length_append, List.length_replicate,
    f.glyphs_length hwidth, f.cursor_length hwidth]
  show 2 + (31 * f.charBytes - 2 + (95 * f.charBytes + f.charBytes)) = 127 * f.charBytes
  omega

/-- The lines in front of the last padding, assembled. -/
theorem assemble_asmLines (path : List UInt8) {rest : List AsmLine} {tail : List UInt8}
    (hrest : assemble (127 * f.charBytes) rest = some tail) :
    assemble 0 (f.asmLines path width ++ rest) = some (f.charsImage width ++ tail) := by
  have hpos := f.charBytes_pos
  have hsize := @AsmLine.fixed (.size f.width.chars f.height.chars)
    [wordByte f.width.value 0, wordByte f.height.value 0] fun _ => by
      simp only [AsmLine.assemble, Numeral.decimalNumber_chars]
      rfl
  have hpadding := @AsmLine.fixed (.initialPadding f.charBytes)
    (List.replicate (31 * f.charBytes - 2) 0) fun _ => if_pos (by omega)
  have hcomment := fun s => @AsmLine.fixed (.comment s) [] fun _ => rfl
  have hfixed : ∀ l ∈ f.asmLines path width, l.Fixed := by
    intro l hl
    unfold asmLines at hl
    simp only [List.mem_cons, List.mem_append, List.mem_flatMap] at hl
    rcases hl with rfl | rfl | rfl | ⟨g, hg, hl⟩ | hl
    · exact (hcomment _).1
    · exact hsize.1
    · exact hpadding.1
    · exact ((g.asmLines_fixed width (f.glyphs_ok g hg) f.digits_pos).1 l hl).1
    · exact ((cursorLines_fixed width f.height.value f.width_pos).1 l hl).1
  have hbytes : (f.asmLines path width).flatMap AsmLine.bytes = f.charsImage width := by
    unfold asmLines charsImage
    rw [List.flatMap_cons, List.flatMap_cons, List.flatMap_cons, List.flatMap_append,
      f.glyphs_bytes, (hcomment _).2, hsize.2, ← hpadding.2]
    rfl
  rw [← hbytes]
  refine assemble_fixed hfixed ?_
  rw [hbytes, f.length_charsImage hwidth, Nat.zero_add]
  exact hrest

/-- The text written is longer than the bytes it stands for. -/
theorem renderAll_asmLines (path : List UInt8) :
    127 * f.charBytes ≤ (renderAll (f.asmLines path width)).length := by
  have hglyphs := @roomy_lines (f.glyphs.flatMap (Glyph.asmLines width)) fun l hl => by
    obtain ⟨g, hg, hl⟩ := List.mem_flatMap.mp hl
    exact ((g.asmLines_fixed width (f.glyphs_ok g hg) f.digits_pos).1 l hl).2
  have hcursor := @roomy_lines (cursorLines width f.width.value f.height.value) fun l hl =>
    ((cursorLines_fixed width f.height.value f.width_pos).1 l hl).2
  rw [f.glyphs_bytes, f.glyphs_length hwidth] at hglyphs
  rw [f.cursor_length hwidth] at hcursor
  unfold asmLines renderAll at *
  simp only [List.flatMap_cons, List.flatMap_append, List.length_append]
  omega

/-- The glyphs in the image. -/
theorem charsImage_isImage (tail : List UInt8) : IsImage f (f.charsImage width ++ tail) := by
  have hpos := f.charBytes_pos
  refine ⟨rfl, rfl, fun i g hg r row hrow k hk => ?_⟩
  have hmem := List.mem_of_getElem? hg
  have hr : r < f.height.value := by
    rw [← (f.glyphs_ok g hmem).height]
    exact (List.getElem?_eq_some_iff.mp hrow).1
  have hi : i < 95 := by
    rw [← f.count]
    exact (List.getElem?_eq_some_iff.mp hg).1
  have hplace : r * rowBytes f.width.value + k < f.charBytes := by
    unfold charBytes
    calc r * rowBytes f.width.value + k < (r + 1) * rowBytes f.width.value := by
          rw [Nat.succ_mul]
          omega
      _ ≤ f.height.value * rowBytes f.width.value := Nat.mul_le_mul_right _ hr
  -- the byte of the row, of the glyph, of all glyphs
  have hrowByte : (g.bytes width)[r * rowBytes f.width.value + k]? =
      some (wordByte (hexValue row) k) := by
    unfold Glyph.bytes
    rw [← hwidth] at hk ⊢
    rw [getElem?_flatMap (fun _ _ => length_littleEndian _ _) hrow hk, getElem?_littleEndian hk]
  have hglyphByte : (f.glyphs.flatMap (Glyph.bytes width))[i * f.charBytes +
      (r * rowBytes f.width.value + k)]? = some (wordByte (hexValue row) k) := by
    rw [getElem?_flatMap (fun g hg => f.glyph_length hwidth hg) hg hplace, hrowByte]
  have hinside : i * f.charBytes + (r * rowBytes f.width.value + k) <
      (f.glyphs.flatMap (Glyph.bytes width)).length :=
    (List.getElem?_eq_some_iff.mp hglyphByte).1
  have hsum : (31 + i) * f.charBytes = 31 * f.charBytes + i * f.charBytes := Nat.add_mul _ _ _
  have hlen : [wordByte f.width.value 0, wordByte f.height.value 0].length = 2 := rfl
  rw [← charBytes, hsum]
  unfold charsImage
  rw [List.append_assoc, List.getElem?_append_right (by rw [hlen]; omega), hlen, List.append_assoc,
    List.getElem?_append_right (by rw [List.length_replicate]; omega), List.length_replicate,
    List.append_assoc, List.getElem?_append_left (by omega), ← hglyphByte]
  congr 1
  omega

end

/-- **The image of a font** that the converter can read. -/
theorem fontImage_readable (path : List UInt8) (hr : f.Readable) :
    ∃ image, fontImage path f.contents = some image ∧ IsImage f image := by
  obtain ⟨width, hwidth, hlines⟩ := f.bdfToAsm_readable path hr
  have hroom := f.renderAll_asmLines hwidth path
  have hpadding : 127 * f.charBytes ≤
      nextSectorSize (renderAll (f.asmLines path width)).length := by
    unfold nextSectorSize
    omega
  have hrest : ∃ tail, assemble (127 * f.charBytes)
      [.sectorPadding (nextSectorSize (renderAll (f.asmLines path width)).length)] = some tail := by
    unfold assemble AsmLine.assemble
    simp only [if_pos hpadding]
    exact ⟨_, rfl⟩
  obtain ⟨tail, hrest⟩ := hrest
  refine ⟨f.charsImage width ++ tail, ?_, f.charsImage_isImage hwidth tail⟩
  unfold fontImage
  rw [hlines, Option.bind_eq_bind, Option.bind_some]
  exact f.assemble_asmLines hwidth path hrest

end BdfFont

end AmateurOs.Fonts
