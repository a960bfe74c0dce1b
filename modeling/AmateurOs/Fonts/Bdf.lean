/-
# BDF fonts

The fonts that `bdf_to_asm` is for (`BdfFont`), and how it reads them.

A font is a text of lines.  `read_until` looks for a line by its first word, and what it looks at
are the pieces that `fgets` takes: of a line of 255 characters or more that is passed over, pieces
from its middle as well.  `PassedOver` says that none of them begins with the word; for short lines
that is a matter of the lines themselves (`passedOver_short`).  In a font that is `Readable` in this
sense the converter finds every line that it looks for (`fontImage_readable`).
-/
import Mathlib.Data.List.DropRight
import AmateurOs.Fonts.Convert

namespace AmateurOs.Fonts

open AmateurOs.Lib
open AmateurOs.Terminal (char text isDigit)

/-! ## 1. Lines and pieces -/

/-- Lines, each with a newline behind it. -/
def lineText (lines : List (List UInt8)) : List UInt8 := lines.flatMap (· ++ [newline])

/-- Text that `read_until` passes over: no piece of it begins with the string. -/
inductive PassedOver (string : List UInt8) : List UInt8 → Prop
  | nil : PassedOver string []
  | piece {s : List UInt8} (hne : s ≠ []) (hnot : ¬ string <+: piece (bufferSize - 1) s)
      (hrest : PassedOver string (s.drop (piece (bufferSize - 1) s).length)) : PassedOver string s

/-- The text ends with a newline. -/
def Complete (s : List UInt8) : Prop := s = [] ∨ s.getLast? = some newline

theorem piece_begins : ∀ (n : Nat) (s : List UInt8), piece n s <+: s
  | 0, _ => List.nil_prefix
  | _ + 1, [] => List.nil_prefix
  | n + 1, c :: cs => by
    unfold piece
    split
    · exact List.cons_prefix_cons.mpr ⟨rfl, List.nil_prefix⟩
    · exact List.cons_prefix_cons.mpr ⟨rfl, piece_begins n cs⟩

theorem piece_ne_nil {n : Nat} {s : List UInt8} (hn : 0 < n) (hs : s ≠ []) : piece n s ≠ [] := by
  obtain ⟨n, rfl⟩ := Nat.exists_eq_succ_of_ne_zero (Nat.ne_of_gt hn)
  obtain ⟨c, cs, rfl⟩ := List.exists_cons_of_ne_nil hs
  unfold piece
  split <;> exact List.cons_ne_nil _ _

/-- What is behind a newline does not matter. -/
theorem piece_append : ∀ (n : Nat) (s rest : List UInt8), newline ∈ s →
    piece n (s ++ rest) = piece n s
  | 0, _, _, _ => rfl
  | n + 1, [], _, h => absurd h List.not_mem_nil
  | n + 1, c :: cs, rest, h => by
    rw [List.cons_append, piece, piece]
    by_cases hc : c = newline
    · rw [if_pos hc, if_pos hc]
    · have hlater := (List.mem_cons.mp h).resolve_left (Ne.symm hc)
      rw [if_neg hc, if_neg hc, piece_append n cs rest hlater]

/-- **A whole line** is one piece. -/
theorem piece_line : ∀ (n : Nat) (l rest : List UInt8), newline ∉ l → l.length < n →
    piece n (l ++ newline :: rest) = l ++ [newline]
  | 0, _, _, _, h => absurd h (Nat.not_lt_zero _)
  | n + 1, [], rest, _, _ => by
    rw [List.nil_append, piece, if_pos rfl]
    rfl
  | n + 1, c :: cs, rest, hnot, hlen => by
    have hc : c ≠ newline := fun heq => hnot (heq ▸ List.mem_cons_self)
    rw [List.cons_append, piece, if_neg hc, piece_line n cs rest
      (fun hin => hnot (List.mem_cons_of_mem _ hin)) (Nat.lt_of_succ_lt_succ hlen)]
    rfl

theorem Complete.newline_mem {s : List UInt8} (h : Complete s) (hs : s ≠ []) : newline ∈ s :=
  List.mem_of_getLast? (h.resolve_left hs)

theorem Complete.drop {s : List UInt8} (h : Complete s) (n : Nat) : Complete (s.drop n) := by
  rcases h with rfl | h
  · exact Or.inl List.drop_nil
  · unfold Complete
    rw [List.getLast?_drop]
    by_cases hn : s.length ≤ n
    · exact Or.inl (List.drop_eq_nil_of_le hn)
    · rw [if_neg hn]
      exact Or.inr h

theorem complete_lineText (lines : List (List UInt8)) : Complete (lineText lines) := by
  rcases List.eq_nil_or_concat lines with rfl | ⟨front, l, rfl⟩
  · exact Or.inl rfl
  · refine Or.inr ?_
    unfold lineText
    rw [List.concat_eq_append, List.flatMap_append, List.flatMap_singleton, ← List.append_assoc]
    exact List.getLast?_concat

@[simp] theorem lineText_nil : lineText [] = [] := rfl

theorem lineText_cons (l : List UInt8) (lines : List (List UInt8)) :
    lineText (l :: lines) = l ++ newline :: lineText lines := by
  unfold lineText
  rw [List.flatMap_cons, List.append_assoc]
  rfl

theorem lineText_append (a b : List (List UInt8)) : lineText (a ++ b) = lineText a ++ lineText b :=
  List.flatMap_append

theorem drop_line (l rest : List UInt8) :
    (l ++ newline :: rest).drop (l ++ [newline]).length = rest := by
  have hsplit : l ++ newline :: rest = (l ++ [newline]) ++ rest := List.append_cons _ _ _
  rw [hsplit, List.drop_left]

/-- **Lines shorter than the buffer** are passed over when they begin otherwise. -/
theorem passedOver_short {string : List UInt8} (hstring : newline ∉ string) :
    ∀ {lines : List (List UInt8)}, (∀ l ∈ lines, newline ∉ l ∧ l.length < bufferSize - 1 ∧
      ¬ string <+: l) → PassedOver string (lineText lines) := by
  intro lines
  induction lines with
  | nil => exact fun _ => .nil
  | cons l lines ih =>
    intro h
    obtain ⟨hnot, hlen, hbegin⟩ := h l List.mem_cons_self
    have hpiece : piece (bufferSize - 1) (lineText (l :: lines)) = l ++ [newline] := by
      rw [lineText_cons]
      exact piece_line _ _ _ hnot hlen
    refine .piece ?_ ?_ ?_
    · rw [lineText_cons]
      exact List.append_ne_nil_of_right_ne_nil _ (List.cons_ne_nil _ _)
    · rw [hpiece]
      intro hbegins
      refine hbegin (List.prefix_of_prefix_length_le hbegins (List.prefix_append _ _) ?_)
      by_contra hlong
      obtain ⟨behind, hwhole⟩ := hbegins
      have hnil : behind = [] := by
        have := congrArg List.length hwhole
        rw [List.length_append, List.length_append, List.length_singleton] at this
        exact List.length_eq_zero_iff.mp (by omega)
      rw [hnil, List.append_nil] at hwhole
      rw [hwhole] at hstring
      exact hstring (List.mem_append_right _ (List.mem_singleton_self _))
    · rw [hpiece, lineText_cons, drop_line]
      exact ih fun l' hl' => h l' (List.mem_cons_of_mem _ hl')

/-! ## 2. Reading -/

/-- `fgets` on a line. -/
theorem fgets_line {behind l rest : List UInt8} (hnot : newline ∉ l)
    (hlen : l.length < bufferSize - 1) : fgets ⟨behind, l ++ newline :: rest⟩ =
      some (l ++ [newline], ⟨(l ++ [newline]).reverse ++ behind, rest⟩) := by
  unfold fgets
  rw [if_neg (List.append_ne_nil_of_right_ne_nil _ (List.cons_ne_nil _ _))]
  simp only [piece_line _ _ rest hnot hlen]
  rw [drop_line]

/-- **`read_until`** passes over a text, and stops at the line behind it. -/
theorem readUntil_finds {string s l rest : List UInt8} (hpassed : PassedOver string s)
    (hs : Complete s) (hnot : newline ∉ l) (hlen : l.length < bufferSize - 1)
    (hbegins : string <+: l) : ∀ (fuel : Nat) (behind buffer : List UInt8), s.length < fuel →
      readUntil string fuel ⟨behind, s ++ (l ++ newline :: rest)⟩ buffer =
        (⟨(s ++ (l ++ [newline])).reverse ++ behind, rest⟩, l ++ [newline]) := by
  induction hpassed with
  | nil =>
    intro fuel behind buffer hfuel
    obtain ⟨fuel, rfl⟩ := Nat.exists_eq_succ_of_ne_zero (Nat.ne_of_gt hfuel)
    have hstop : string.isPrefixOf (l ++ [newline]) = true :=
      List.isPrefixOf_iff_prefix.mpr (hbegins.trans (List.prefix_append _ _))
    unfold readUntil
    rw [List.nil_append, fgets_line hnot hlen]
    simp only [hstop, if_true]
    rfl
  | @piece s hne hbegin _ ih =>
    intro fuel behind buffer hfuel
    obtain ⟨fuel, rfl⟩ := Nat.exists_eq_succ_of_ne_zero (Nat.ne_of_gt (Nat.zero_lt_of_lt hfuel))
    have hpiece : piece (bufferSize - 1) (s ++ (l ++ newline :: rest)) =
        piece (bufferSize - 1) s := piece_append _ _ _ (hs.newline_mem hne)
    have hle : (piece (bufferSize - 1) s).length ≤ s.length := (piece_begins _ _).length_le
    have hpos : 0 < (piece (bufferSize - 1) s).length :=
      List.length_pos_of_ne_nil (piece_ne_nil (by decide) hne)
    have hgo : string.isPrefixOf (piece (bufferSize - 1) s) = false := by
      rw [Bool.eq_false_iff, ne_eq, List.isPrefixOf_iff_prefix]
      exact hbegin
    have hsplit : piece (bufferSize - 1) s ++ s.drop (piece (bufferSize - 1) s).length = s := by
      conv_rhs => rw [← List.take_append_drop (piece (bufferSize - 1) s).length s]
      rw [← List.prefix_iff_eq_take.mp (piece_begins (bufferSize - 1) s)]
    unfold readUntil fgets
    rw [if_neg (List.append_ne_nil_of_left_ne_nil hne _)]
    simp only [hpiece, hgo, Bool.false_eq_true, if_false]
    rw [List.drop_append_of_le_length hle, ih (hs.drop _) fuel _ _ (by
      rw [List.length_drop]
      omega)]
    conv_rhs => rw [← hsplit]
    simp only [List.reverse_append, List.append_assoc]

/-! ## 3. Words -/

/-- A word: characters that are no delimiters. -/
def IsWord (w : List UInt8) : Prop := w ≠ [] ∧ ∀ c ∈ w, isDelimiter c = false

theorem IsWord.newline_not_mem {w : List UInt8} (h : IsWord w) : newline ∉ w := fun hin =>
  absurd (h.2 _ hin) (by decide)

/-- `strtok` on a word and what is behind it. -/
theorem strtok_word {w rest : List UInt8} {d : UInt8} (hw : IsWord w) (hd : isDelimiter d = true) :
    strtok (w ++ d :: rest) = some (w, rest) := by
  obtain ⟨c, cs, rfl⟩ := List.exists_cons_of_ne_nil hw.1
  have hc := hw.2 c List.mem_cons_self
  have hall : ∀ x ∈ c :: cs, (!isDelimiter x) = true := fun x hx => by rw [hw.2 x hx]; rfl
  have hdrop : ((c :: cs) ++ d :: rest).dropWhile isDelimiter = (c :: cs) ++ d :: rest :=
    List.dropWhile_cons_of_neg (by rw [hc]; decide)
  unfold strtok
  simp only [hdrop]
  rw [if_neg (by simp), List.takeWhile_append_of_pos hall, List.dropWhile_append_of_pos hall,
    List.takeWhile_cons_of_neg (by rw [hd]; decide),
    List.dropWhile_cons_of_neg (by rw [hd]; decide), List.append_nil]
  rfl

/-- The second word of a line of two. -/
theorem secondWord_line {w v rest : List UInt8} {d : UInt8} (hw : IsWord w) (hv : IsWord v)
    (hd : isDelimiter d = true) : secondWord (w ++ char ' ' :: (v ++ d :: rest)) = some v := by
  unfold secondWord
  rw [strtok_word hw (by decide), Option.bind_eq_bind, Option.bind_some, strtok_word hv hd]
  rfl

/-- A decimal number. -/
structure Numeral where
  chars : List UInt8
  nonempty : chars ≠ []
  digits : ∀ c ∈ chars, isDigit c = true
  short : chars.length ≤ 9

namespace Numeral

def value (n : Numeral) : Nat := decimalValue n.chars

theorem isWord (n : Numeral) : IsWord n.chars := by
  refine ⟨n.nonempty, fun c hc => ?_⟩
  have hdigit := n.digits c hc
  unfold isDigit at hdigit
  unfold isDelimiter
  rw [Bool.and_eq_true, decide_eq_true_iff, decide_eq_true_iff] at hdigit
  rw [Bool.or_eq_false_iff, beq_eq_false_iff_ne, beq_eq_false_iff_ne]
  constructor
  · rintro rfl
    exact absurd hdigit.1 (by decide)
  · rintro rfl
    exact absurd hdigit.1 (by decide)

theorem decimalValue_lt : ∀ (ds : List UInt8), (∀ c ∈ ds, isDigit c = true) →
    decimalValue ds < 10 ^ ds.length := by
  intro ds
  induction ds using List.reverseRecOn with
  | nil => exact fun _ => by decide
  | append_singleton ds c ih =>
    intro h
    have hfront := ih fun x hx => h x (List.mem_append_left _ hx)
    have hc := h c (List.mem_append_right _ (List.mem_singleton_self _))
    unfold isDigit at hc
    rw [Bool.and_eq_true, decide_eq_true_iff, decide_eq_true_iff] at hc
    have hnine : c.toNat ≤ 57 := hc.2
    have hstep : decimalValue (ds ++ [c]) = decimalValue ds * 10 + (c.toNat - 48) := by
      unfold decimalValue
      rw [List.foldl_append]
      rfl
    rw [hstep, List.length_append, List.length_singleton, Nat.pow_succ]
    omega

theorem value_lt (n : Numeral) : n.value < 1000000000 :=
  Nat.lt_of_lt_of_le (decimalValue_lt _ n.digits) (Nat.pow_le_pow_right (by decide) n.short)

/-- `strtol` of a number. -/
theorem strtol_chars (n : Numeral) : strtol n.chars = n.value := by
  have hall : ∀ c ∈ n.chars, c ≠ char '-' ∧ c ≠ char '+' ∧ isSpace c = false := by
    intro c hc
    have hdigit := n.digits c hc
    unfold isDigit at hdigit
    rw [Bool.and_eq_true, decide_eq_true_iff, decide_eq_true_iff] at hdigit
    have hlow : 48 ≤ c.toNat := hdigit.1
    refine ⟨?_, ?_, ?_⟩
    · rintro rfl
      exact absurd hdigit.1 (by decide)
    · rintro rfl
      exact absurd hdigit.1 (by decide)
    · unfold isSpace
      rw [n.isWord.2 c hc, Bool.false_or, Bool.and_eq_false_iff, decide_eq_false_iff_not,
        decide_eq_false_iff_not]
      refine Or.inr fun hle => ?_
      have : c.toNat ≤ 13 := hle
      omega
  have hdrop : n.chars.dropWhile isSpace = n.chars := by
    refine List.dropWhile_eq_self_iff.mpr fun hpos => ?_
    rw [(hall _ (List.getElem_mem hpos)).2.2]
    decide
  have hhead : ∀ c, n.chars.head? = some c → c ≠ char '-' ∧ c ≠ char '+' := fun c hc =>
    ⟨(hall c (List.mem_of_head? hc)).1, (hall c (List.mem_of_head? hc)).2.1⟩
  have hminus : ¬ n.chars.head? = some (char '-') := fun h => (hhead _ h).1 rfl
  have hplus : ¬ n.chars.head? = some (char '+') := fun h => (hhead _ h).2 rfl
  have htake : n.chars.takeWhile isDigit = n.chars := List.takeWhile_eq_self_iff.mpr n.digits
  have hlt := n.value_lt
  unfold strtol
  simp only [hdrop, hminus, hplus, or_self, if_false, htake]
  unfold value at *
  omega

end Numeral

/-! ## 4. Fonts -/

/-- The lines of a glyph: those between the glyph before and its own, those between its code and
its bitmap, and the rows of the bitmap in hexadecimal. -/
structure Glyph where
  gap : List (List UInt8)
  name : List UInt8
  code : Numeral
  properties : List (List UInt8)
  rows : List (List UInt8)

def startLine (name : List UInt8) : List UInt8 := text "STARTCHAR" ++ char ' ' :: name

def encodingLine (code : Numeral) : List UInt8 := text "ENCODING" ++ char ' ' :: code.chars

def Glyph.lines (g : Glyph) : List (List UInt8) :=
  g.gap ++ startLine g.name :: encodingLine g.code :: (g.properties ++ text "BITMAP" ::
    (g.rows ++ [text "ENDCHAR"]))

/-- **A glyph** of `height` rows of `rowDigits` digits. -/
structure Glyph.WellFormed (height rowDigits : Nat) (g : Glyph) : Prop where
  gap : ∀ l ∈ g.gap, newline ∉ l ∧ ¬ text "STARTCHAR" <+: l
  name : IsWord g.name ∧ g.name.length < asciiNameSize
  properties : ∀ l ∈ g.properties, newline ∉ l ∧ ¬ text "BITMAP" <+: l
  height : g.rows.length = height
  rows : ∀ row ∈ g.rows, row.length = rowDigits ∧ ∀ c ∈ row, (hexDigit c).isSome = true

/-- The bytes of a row of pixels. -/
def rowBytes (width : Nat) : Nat := (width - 1) / 8 + 1

/-- **A BDF font** with the glyphs 32 to 126, from the line `STARTCHAR space` on, and one behind
them. -/
structure BdfFont where
  prologue : List (List UInt8)
  width : Numeral
  height : Numeral
  /-- The offsets behind width and height. -/
  box : List UInt8
  header : List (List UInt8)
  glyphs : List Glyph
  endGap : List (List UInt8)
  endName : List UInt8
  endCode : Numeral
  tail : List UInt8
  prologue_ok : ∀ l ∈ prologue, newline ∉ l ∧ ¬ text "FONTBOUNDINGBOX" <+: l
  width_ok : 1 ≤ width.value ∧ width.value ≤ 16 ∨ 25 ≤ width.value ∧ width.value ≤ 32
  height_ok : 1 ≤ height.value ∧ height.value * rowBytes width.value ≤ 255
  box_ok : newline ∉ box ∧ (box = [] ∨ box.head? = some (char ' ')) ∧ box.length ≤ 200
  header_ok : ∀ l ∈ header, newline ∉ l ∧ l ≠ text "STARTCHAR space"
  glyphs_ok : ∀ g ∈ glyphs, g.WellFormed height.value (2 * rowBytes width.value)
  codes : glyphs.map (fun g => g.code.value) = List.range' 32 95
  space : ∃ g rest, glyphs = g :: rest ∧ g.gap = [] ∧ g.name = text "space"
  endGap_ok : ∀ l ∈ endGap, newline ∉ l ∧ ¬ text "STARTCHAR" <+: l
  endName_ok : IsWord endName
  endCode_ok : 126 < endCode.value

namespace BdfFont

/-- The line `FONTBOUNDINGBOX`. -/
def boxLine (f : BdfFont) : List UInt8 :=
  text "FONTBOUNDINGBOX" ++ char ' ' :: (f.width.chars ++ char ' ' :: (f.height.chars ++ f.box))

/-- The glyph behind the others, and the rest. -/
def ending (f : BdfFont) : List UInt8 :=
  lineText f.endGap ++ (startLine f.endName ++ newline :: (encodingLine f.endCode ++
    newline :: f.tail))

/-- The text from the first glyph on. -/
def glyphText (f : BdfFont) : List UInt8 := lineText (f.glyphs.flatMap Glyph.lines) ++ f.ending

/-- The text of the font. -/
def contents (f : BdfFont) : List UInt8 :=
  lineText f.prologue ++ (f.boxLine ++ newline :: (lineText f.header ++ f.glyphText))

/-- **The converter finds its lines**: no piece of the lines it passes over begins with the word it
looks for, and the name of the last glyph fits in `ascii_name`. -/
structure Readable (f : BdfFont) : Prop where
  prologue : PassedOver (text "FONTBOUNDINGBOX") (lineText f.prologue)
  header : PassedOver (text "STARTCHAR space") (lineText f.header)
  gaps : ∀ g ∈ f.glyphs, PassedOver (text "STARTCHAR") (lineText g.gap)
  properties : ∀ g ∈ f.glyphs, PassedOver (text "BITMAP") (lineText g.properties)
  endGap : PassedOver (text "STARTCHAR") (lineText f.endGap)
  endName : f.endName.length < asciiNameSize

end BdfFont

/-! ## 5. Glyphs read -/

/-- The bitmap line of a row. -/
def rowLine (width : DefineWidth) (row : List UInt8) : AsmLine := .bitmap width (row ++ [newline])

/-- What is written for a glyph. -/
def Glyph.asmLines (width : DefineWidth) (g : Glyph) : List AsmLine :=
  .comment (text ";; " ++ g.name ++ text " " ++ g.code.chars ++ text "\n") ::
    g.rows.map (rowLine width)

/-- The lines of a glyph one by one. -/
theorem Glyph.lineText_lines (g : Glyph) (rest : List UInt8) : lineText g.lines ++ rest =
    lineText g.gap ++ (startLine g.name ++ newline :: (encodingLine g.code ++ newline ::
      (lineText g.properties ++ (text "BITMAP" ++ newline :: (lineText g.rows ++
        (text "ENDCHAR" ++ newline :: rest)))))) := by
  unfold Glyph.lines
  simp only [lineText_append, lineText_cons, lineText_nil, List.append_assoc, List.cons_append,
    List.nil_append]

theorem length_le_lineText (lines : List (List UInt8)) :
    lines.length ≤ (lineText lines).length := by
  induction lines with
  | nil => exact Nat.le_refl _
  | cons l lines ih =>
    rw [lineText_cons, List.length_append, List.length_cons, List.length_cons]
    omega

/-- The keywords of the lines. -/
theorem keywords_isWord : IsWord (text "STARTCHAR") ∧ IsWord (text "ENCODING") ∧
    IsWord (text "BITMAP") ∧ IsWord (text "ENDCHAR") ∧ IsWord (text "FONTBOUNDINGBOX") := by
  unfold IsWord
  decide +kernel

theorem startLine_ok {name : List UInt8} (h : IsWord name) (hlen : name.length < asciiNameSize) :
    newline ∉ startLine name ∧ (startLine name).length < bufferSize - 1 := by
  unfold startLine bufferSize asciiNameSize at *
  constructor
  · rw [List.mem_append, List.mem_cons, not_or, not_or]
    exact ⟨keywords_isWord.1.newline_not_mem, by decide, h.newline_not_mem⟩
  · have hnine : (text "STARTCHAR").length = 9 := by decide
    rw [List.length_append, List.length_cons, hnine]
    omega

theorem encodingLine_ok (code : Numeral) :
    newline ∉ encodingLine code ∧ (encodingLine code).length < bufferSize - 1 := by
  have hshort := code.short
  unfold encodingLine bufferSize
  constructor
  · rw [List.mem_append, List.mem_cons, not_or, not_or]
    exact ⟨keywords_isWord.2.1.newline_not_mem, by decide, code.isWord.newline_not_mem⟩
  · have height : (text "ENCODING").length = 8 := by decide
    rw [List.length_append, List.length_cons, height]
    omega

/-- The rows of a bitmap, and the line `ENDCHAR`. -/
theorem bitmapLoop_rows (width : DefineWidth) {rest : List UInt8} :
    ∀ (rows : List (List UInt8)), (∀ row ∈ rows, row.length < bufferSize - 1 ∧
      ∀ c ∈ row, (hexDigit c).isSome = true) →
    ∀ (fuel : Nat) (behind buffer : List UInt8), rows.length < fuel →
    ∃ behind', bitmapLoop width fuel
      ⟨behind, lineText rows ++ (text "ENDCHAR" ++ newline :: rest)⟩ buffer =
        (rows.map (rowLine width), ⟨behind', rest⟩, text "ENDCHAR" ++ [newline]) := by
  have hdigitLine : ∀ row : List UInt8, (∀ c ∈ row, (hexDigit c).isSome = true) →
      newline ∉ row ∧ ¬ text "ENDCHAR" <+: row ++ [newline] := by
    intro row hrow
    refine ⟨fun hin => absurd (hrow _ hin) (by decide), fun hbegins => ?_⟩
    -- the second letter is not a hexadecimal digit
    obtain ⟨behind, hwhole⟩ := hbegins
    have htext : text "ENDCHAR" = char 'E' :: char 'N' :: text "DCHAR" := rfl
    rw [htext] at hwhole
    rcases row with - | ⟨a, - | ⟨b, row⟩⟩
    · exact absurd (List.cons.inj hwhole).1 (by decide)
    · exact absurd (List.cons.inj (List.cons.inj hwhole).2).1 (by decide)
    · have hb := hrow b (List.mem_cons_of_mem _ List.mem_cons_self)
      rw [← (List.cons.inj (List.cons.inj hwhole).2).1] at hb
      exact absurd hb (by decide)
  intro rows
  induction rows with
  | nil =>
    intro _ fuel behind buffer hfuel
    obtain ⟨fuel, rfl⟩ := Nat.exists_eq_succ_of_ne_zero (Nat.ne_of_gt hfuel)
    refine ⟨(text "ENDCHAR" ++ [newline]).reverse ++ behind, ?_⟩
    have hstop : (text "ENDCHAR").isPrefixOf (text "ENDCHAR" ++ [newline]) = true :=
      List.isPrefixOf_iff_prefix.mpr (List.prefix_append _ _)
    obtain ⟨-, -, -, hkeyword, -⟩ := keywords_isWord
    unfold bitmapLoop
    rw [lineText_nil, List.nil_append, fgets_line hkeyword.newline_not_mem (by decide)]
    simp only [hstop, if_true]
    rfl
  | cons row rows ih =>
    intro h fuel behind buffer hfuel
    obtain ⟨fuel, rfl⟩ := Nat.exists_eq_succ_of_ne_zero (Nat.ne_of_gt (Nat.zero_lt_of_lt hfuel))
    obtain ⟨hlen, hdigits⟩ := h row List.mem_cons_self
    obtain ⟨hnot, hgo⟩ := hdigitLine row hdigits
    have hgo : (text "ENDCHAR").isPrefixOf (row ++ [newline]) = false := by
      rw [Bool.eq_false_iff, ne_eq, List.isPrefixOf_iff_prefix]
      exact hgo
    obtain ⟨behind', hrest⟩ := ih (fun row' hrow' => h row' (List.mem_cons_of_mem _ hrow')) fuel
      ((row ++ [newline]).reverse ++ behind) (row ++ [newline]) (Nat.lt_of_succ_lt_succ hfuel)
    refine ⟨behind', ?_⟩
    unfold bitmapLoop
    rw [lineText_cons, List.append_assoc, List.cons_append, fgets_line hnot hlen]
    simp only [hgo, Bool.false_eq_true, if_false]
    rw [hrest]
    rfl

section

variable (width : DefineWidth) {height rowDigits : Nat}

/-- The name in a line `STARTCHAR`, and the number in a line `ENCODING`. -/
theorem secondWord_startLine {name : List UInt8} (h : IsWord name) :
    secondWord (startLine name ++ [newline]) = some name := by
  unfold startLine
  rw [List.append_assoc, List.cons_append]
  exact secondWord_line keywords_isWord.1 h (by decide)

theorem secondWord_encodingLine (code : Numeral) :
    secondWord (encodingLine code ++ [newline]) = some code.chars := by
  unfold encodingLine
  rw [List.append_assoc, List.cons_append]
  exact secondWord_line keywords_isWord.2.1 code.isWord (by decide)

theorem readEncoding_line (code : Numeral) (behind buffer rest : List UInt8) :
    readEncoding ⟨behind, encodingLine code ++ newline :: rest⟩ buffer =
      (⟨(encodingLine code ++ [newline]).reverse ++ behind, rest⟩,
        encodingLine code ++ [newline]) := by
  unfold readEncoding
  rw [fgets_line (encodingLine_ok code).1 (encodingLine_ok code).2]

/-- **One turn of the loop** writes a glyph. -/
theorem charLoop_glyph {g : Glyph} (h : g.WellFormed height rowDigits)
    (hdigits : rowDigits < bufferSize - 1) (hgap : PassedOver (text "STARTCHAR") (lineText g.gap))
    (hproperties : PassedOver (text "BITMAP") (lineText g.properties)) (hcode : g.code.value ≤ 126)
    {rest : List UInt8} {fuel : Nat} (hfuel : (lineText g.lines).length ≤ fuel)
    (behind buffer : List UInt8) : ∃ behind' buffer',
      charLoop width (fuel + 1) ⟨behind, lineText g.lines ++ rest⟩ buffer =
        (charLoop width fuel ⟨behind', rest⟩ buffer').map (g.asmLines width ++ ·) := by
  obtain ⟨hname, hshort⟩ := h.name
  obtain ⟨hstart, hstartLen⟩ := startLine_ok hname hshort
  have hlength := congrArg List.length (g.lineText_lines [])
  rw [List.append_nil] at hlength
  simp only [List.length_append, List.length_cons] at hlength
  have hrows := length_le_lineText g.rows
  obtain ⟨behind', hbitmap⟩ := @bitmapLoop_rows width rest g.rows (fun row hrow =>
    ⟨(h.rows row hrow).1 ▸ hdigits, (h.rows row hrow).2⟩) fuel
      ((lineText g.properties ++ (text "BITMAP" ++ [newline])).reverse ++
        ((encodingLine g.code ++ [newline]).reverse ++
          ((lineText g.gap ++ (startLine g.name ++ [newline])).reverse ++ behind)))
      (text "BITMAP" ++ [newline]) (by omega)
  refine ⟨behind', text "ENDCHAR" ++ [newline], ?_⟩
  have hsmall : ¬ ((g.code.value : Nat) : Int) > 126 := by omega
  have hfits : ¬ g.name.length ≥ asciiNameSize := Nat.not_le.mpr hshort
  obtain ⟨-, -, hkeyword, -⟩ := keywords_isWord
  rw [g.lineText_lines, charLoop, readUntil_finds hgap (complete_lineText _) hstart hstartLen
    (List.prefix_append _ _) fuel behind buffer (by omega)]
  simp only [secondWord_startLine hname, Option.bind_eq_bind, Option.bind_some, if_neg hfits,
    readEncoding_line, secondWord_encodingLine, Numeral.strtol_chars, if_neg hsmall]
  rw [readUntil_finds hproperties (complete_lineText _) hkeyword.newline_not_mem (by decide)
    (List.prefix_refl _) fuel _ _ (by omega)]
  simp only [hbitmap]
  cases charLoop width fuel ⟨behind', rest⟩ (text "ENDCHAR" ++ [newline]) with
  | none => rfl
  | some lines => rfl

/-- **All glyphs.** -/
theorem charLoop_glyphs {ending : List UInt8}
    (hending : ∀ (fuel : Nat) (behind buffer : List UInt8), ending.length < fuel →
      charLoop width fuel ⟨behind, ending⟩ buffer = some [])
    (hdigits : rowDigits < bufferSize - 1) : ∀ (gs : List Glyph),
    (∀ g ∈ gs, g.WellFormed height rowDigits ∧ g.code.value ≤ 126 ∧
      PassedOver (text "STARTCHAR") (lineText g.gap) ∧
        PassedOver (text "BITMAP") (lineText g.properties)) →
    ∀ (fuel : Nat) (behind buffer : List UInt8),
      (lineText (gs.flatMap Glyph.lines) ++ ending).length < fuel →
      charLoop width fuel ⟨behind, lineText (gs.flatMap Glyph.lines) ++ ending⟩ buffer =
        some (gs.flatMap (Glyph.asmLines width)) := by
  intro gs
  induction gs with
  | nil => exact fun _ fuel behind buffer hfuel => hending fuel behind buffer hfuel
  | cons g gs ih =>
    intro h fuel behind buffer hfuel
    obtain ⟨hg, hcode, hgap, hproperties⟩ := h g List.mem_cons_self
    obtain ⟨fuel, rfl⟩ := Nat.exists_eq_succ_of_ne_zero (Nat.ne_of_gt (Nat.zero_lt_of_lt hfuel))
    rw [List.flatMap_cons, lineText_append, List.append_assoc] at hfuel ⊢
    rw [List.length_append] at hfuel
    obtain ⟨behind', buffer', hturn⟩ := @charLoop_glyph width height rowDigits g hg hdigits hgap
      hproperties hcode (lineText (gs.flatMap Glyph.lines) ++ ending) fuel (by omega) behind buffer
    have hpos : 0 < (lineText g.lines).length := by
      have hlength := congrArg List.length (g.lineText_lines [])
      rw [List.append_nil] at hlength
      simp only [List.length_append, List.length_cons] at hlength
      omega
    rw [hturn, ih (fun g' hg' => h g' (List.mem_cons_of_mem _ hg')) fuel behind' buffer' (by omega),
      List.flatMap_cons]
    rfl

end

/-! ## 6. The font converted -/

/-- `fseek` to the front of what was read last. -/
theorem seekBack_read {n : Nat} {s l behind rest : List UInt8} (h : l.length = n) :
    seekBack n ⟨(s ++ l).reverse ++ behind, rest⟩ = ⟨s.reverse ++ behind, l ++ rest⟩ := by
  have hlen : l.reverse.length = n := by rw [List.length_reverse, h]
  unfold seekBack
  simp only [List.reverse_append, List.append_assoc]
  rw [if_neg (by rw [List.length_append, hlen]; omega), List.drop_left' hlen, List.take_left' hlen,
    List.reverse_reverse]

theorem widthBytes_eq {w : Nat} (h : 1 ≤ w) : widthBytes w = (rowBytes w : Nat) := by
  have hpos : (0 : Int) ≤ (w : Int) - 1 := by omega
  unfold widthBytes rowBytes
  rw [Int.tdiv_eq_ediv_of_nonneg hpos]
  omega

theorem toInt_eq {n : Nat} (h : n < 2147483648) : toInt n = n := by
  unfold toInt
  omega

/-- The widths that have a `define_width`. -/
theorem defineWidth_ok {w : Nat} (h : 1 ≤ w ∧ w ≤ 16 ∨ 25 ≤ w ∧ w ≤ 32) :
    ∃ width, defineWidth w = some width ∧ width.bytes = rowBytes w := by
  unfold defineWidth
  rw [widthBytes_eq (by omega)]
  have hbytes : rowBytes w = 1 ∨ rowBytes w = 2 ∨ rowBytes w = 4 := by
    unfold rowBytes
    omega
  rcases hbytes with hb | hb | hb
  · exact ⟨.db, by rw [hb]; rfl, hb.symm⟩
  · exact ⟨.dw, by rw [hb]; rfl, hb.symm⟩
  · exact ⟨.dd, by rw [hb]; rfl, hb.symm⟩

namespace BdfFont

variable (f : BdfFont)

theorem boxLine_ok : newline ∉ f.boxLine ∧ f.boxLine.length < bufferSize - 1 := by
  obtain ⟨hnot, -, hlen⟩ := f.box_ok
  have hwidth := f.width.short
  have hheight := f.height.short
  have hlength : (text "FONTBOUNDINGBOX").length = 15 := by decide
  obtain ⟨-, -, -, -, hkeyword⟩ := keywords_isWord
  unfold boxLine bufferSize
  constructor
  · simp only [List.mem_append, List.mem_cons, not_or]
    exact ⟨hkeyword.newline_not_mem, by decide, f.width.isWord.newline_not_mem, by decide,
      f.height.isWord.newline_not_mem, hnot⟩
  · simp only [List.length_append, List.length_cons, hlength]
    omega

/-- The words of that line. -/
theorem strtok_boxLine : ∃ first second third, strtok (f.boxLine ++ [newline]) = some first ∧
    strtok first.2 = some second ∧ strtok second.2 = some third ∧
      second.1 = f.width.chars ∧ third.1 = f.height.chars := by
  obtain ⟨-, hbox, -⟩ := f.box_ok
  have hend : ∃ d rest, f.box ++ [newline] = d :: rest ∧ isDelimiter d = true := by
    rcases hbox with hnil | hhead
    · exact ⟨newline, [], by rw [hnil]; rfl, by decide⟩
    · obtain ⟨rest, hrest⟩ := List.head?_eq_some_iff.mp hhead
      exact ⟨char ' ', rest ++ [newline], by rw [hrest]; rfl, by decide⟩
  obtain ⟨d, rest, hend, hd⟩ := hend
  obtain ⟨-, -, -, -, hkeyword⟩ := keywords_isWord
  have hline : f.boxLine ++ [newline] = text "FONTBOUNDINGBOX" ++ char ' ' :: (f.width.chars ++
      char ' ' :: (f.height.chars ++ d :: rest)) := by
    unfold boxLine
    rw [← hend]
    simp only [List.append_assoc, List.cons_append]
  rw [hline]
  exact ⟨_, _, _, strtok_word hkeyword (by decide),
    strtok_word f.width.isWord (by decide), strtok_word f.height.isWord hd, rfl, rfl⟩

/-- The glyph behind the others ends the loop. -/
theorem charLoop_ending (width : DefineWidth) (hr : f.Readable) (fuel : Nat)
    (behind buffer : List UInt8) (hfuel : f.ending.length < fuel) :
    charLoop width fuel ⟨behind, f.ending⟩ buffer = some [] := by
  obtain ⟨fuel, rfl⟩ := Nat.exists_eq_succ_of_ne_zero (Nat.ne_of_gt (Nat.zero_lt_of_lt hfuel))
  obtain ⟨hstart, hstartLen⟩ := startLine_ok f.endName_ok hr.endName
  have hlarge : ((f.endCode.value : Nat) : Int) > 126 := by
    have := f.endCode_ok
    omega
  have hfits : ¬ f.endName.length ≥ asciiNameSize := Nat.not_le.mpr hr.endName
  unfold ending at hfuel ⊢
  simp only [List.length_append, List.length_cons] at hfuel
  rw [charLoop, readUntil_finds hr.endGap (complete_lineText _) hstart hstartLen
    (List.prefix_append _ _) fuel behind buffer (by omega)]
  simp only [secondWord_startLine f.endName_ok, Option.bind_eq_bind, Option.bind_some, if_neg hfits,
    readEncoding_line, secondWord_encodingLine, Numeral.strtol_chars, if_pos hlarge]

theorem code_le {g : Glyph} (hg : g ∈ f.glyphs) : g.code.value ≤ 126 := by
  have hmem : g.code.value ∈ List.range' 32 95 := f.codes ▸ List.mem_map_of_mem hg
  have := (List.mem_range'_1.mp hmem).2
  omega

theorem rowBytes_le : rowBytes f.width.value ≤ 4 := by
  have := f.width_ok
  unfold rowBytes
  omega

/-- **The first glyph is found**, and the position put in front of it. -/
theorem space_found (hr : f.Readable) (fuel : Nat) (behind buffer : List UInt8)
    (hfuel : (lineText f.header).length < fuel) : ∃ behind',
      seekBack 16 (readUntil (text "STARTCHAR space") fuel
        ⟨behind, lineText f.header ++ f.glyphText⟩ buffer).1 = ⟨behind', f.glyphText⟩ := by
  obtain ⟨g, rest, hglyphs, hgap, hspace⟩ := f.space
  have hfront : ∃ after, f.glyphText = text "STARTCHAR space" ++ newline :: after := by
    unfold glyphText
    rw [hglyphs, List.flatMap_cons, lineText_append, List.append_assoc, g.lineText_lines, hgap,
      hspace]
    exact ⟨_, rfl⟩
  obtain ⟨after, hafter⟩ := hfront
  have hfound := @readUntil_finds (text "STARTCHAR space") (lineText f.header)
    (text "STARTCHAR space") after hr.header (complete_lineText _) (by decide +kernel) (by decide)
    (List.prefix_refl _) fuel behind buffer hfuel
  refine ⟨(lineText f.header).reverse ++ behind, ?_⟩
  rw [hafter, hfound, seekBack_read (by decide)]
  simp only [List.append_assoc, List.cons_append, List.nil_append]

/-- The glyphs are read. -/
theorem charLoop_glyphText (width : DefineWidth) (hr : f.Readable) (fuel : Nat)
    (behind buffer : List UInt8) (hfuel : f.glyphText.length < fuel) :
    charLoop width fuel ⟨behind, f.glyphText⟩ buffer =
      some (f.glyphs.flatMap (Glyph.asmLines width)) := by
  have hfour := f.rowBytes_le
  refine charLoop_glyphs width (f.charLoop_ending width hr) ?_ f.glyphs
    (fun g hg => ⟨f.glyphs_ok g hg, f.code_le hg, hr.gaps g hg, hr.properties g hg⟩) fuel behind
    buffer hfuel
  unfold bufferSize
  omega

/-- The lines of the source in front of the last padding. -/
def asmLines (path : List UInt8) (width : DefineWidth) : List AsmLine :=
  .comment (text ";;;\n;;; " ++ outputName path ++ text "\n;;;\n\n") ::
    .size f.width.chars f.height.chars ::
      .initialPadding (f.height.value * rowBytes f.width.value) ::
        (f.glyphs.flatMap (Glyph.asmLines width) ++ cursorLines width f.width.value f.height.value)

/-- **The converter writes the glyphs** of a font that it can read. -/
theorem bdfToAsm_readable (path : List UInt8) (hr : f.Readable) : ∃ width,
    width.bytes = rowBytes f.width.value ∧ bdfToAsm path f.contents = some (f.asmLines path width ++
      [.sectorPadding (nextSectorSize (renderAll (f.asmLines path width)).length)]) := by
  obtain ⟨width, hdefine, hbytes⟩ := defineWidth_ok f.width_ok
  obtain ⟨first, second, third, hfirst, hsecond, hthird, hw, hh⟩ := f.strtok_boxLine
  have hwidth : toInt (strtol f.width.chars) = f.width.value := by
    have := f.width.value_lt
    rw [Numeral.strtol_chars, toInt_eq (by omega)]
  have hheight : toInt (strtol f.height.chars) = f.height.value := by
    have := f.height.value_lt
    rw [Numeral.strtol_chars, toInt_eq (by omega)]
  have hpadding : u32 ((f.height.value : Int) * widthBytes f.width.value % 4294967296).toNat =
      f.height.value * rowBytes f.width.value := by
    have hsmall := f.height_ok.2
    rw [widthBytes_eq (by have := f.width_ok; omega)]
    have hcast : (f.height.value : Int) * (rowBytes f.width.value : Nat) =
        ((f.height.value * rowBytes f.width.value : Nat) : Int) := (Int.natCast_mul _ _).symm
    rw [hcast]
    unfold u32
    omega
  have hlength : f.contents.length = (lineText f.prologue).length + (f.boxLine.length +
      ((lineText f.header).length + f.glyphText.length + 1)) := by
    unfold contents
    rw [List.length_append, List.length_append, List.length_cons, List.length_append]
  have hbox : readUntil (text "FONTBOUNDINGBOX") (f.contents.length + 1) ⟨[], f.contents⟩ [] =
      (⟨(lineText f.prologue ++ (f.boxLine ++ [newline])).reverse ++ [],
        lineText f.header ++ f.glyphText⟩, f.boxLine ++ [newline]) :=
    readUntil_finds hr.prologue (complete_lineText _) f.boxLine_ok.1 f.boxLine_ok.2
      (List.prefix_append _ _) _ _ _ (by omega)
  obtain ⟨behind', hspace⟩ := f.space_found hr (f.contents.length + 1)
    ((lineText f.prologue ++ (f.boxLine ++ [newline])).reverse ++ [])
    (firstWord (f.boxLine ++ [newline])) (by omega)
  have hchars := fun buffer => f.charLoop_glyphText width hr (f.contents.length + 1 + 1) behind'
    buffer (by omega)
  refine ⟨width, hbytes, ?_⟩
  unfold bdfToAsm asmLines
  simp only [hbox, hfirst, hsecond, hthird, Option.bind_eq_bind, Option.bind_some, hw, hh, hwidth,
    hheight, hdefine, hpadding, hspace, hchars]

end BdfFont

end AmateurOs.Fonts
