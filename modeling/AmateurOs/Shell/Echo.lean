/-
# The line on the screen

The shell prints every key that it stores, and for a backspace it goes back, prints two spaces and
goes back over them.  While the line stays in its row, the row shows the characters that
`cmdString` holds (`Echoed`, `typed_line_shown`): a key draws over the cursor, and the second space
wipes the cursor out that was drawn behind the character.
-/
import AmateurOs.Shell.Lines
import AmateurOs.Terminal.Display

namespace AmateurOs.Shell

open AmateurOs.Lib AmateurOs.Terminal
open AmateurOs.Fonts

/-! ## 1. Typing on paper -/

section

universe u

variable {α : Type u} (glyph : UInt8 → α) (cursor : α → α)

/-- What a key draws behind a line. -/
def keyStrokes (line : List UInt8) (key : UInt8) : List (Stroke α) :=
  if key = backspace then
    if line = [] then []
    else [.back, .put (glyph (char ' ')), .put (glyph (char ' ')), .back, .back, .mark cursor]
  else [.put (glyph key), .mark cursor]

/-- What keys draw. -/
def typedStrokes : List UInt8 → List UInt8 → List (Stroke α)
  | _, [] => []
  | line, key :: keys =>
    keyStrokes glyph cursor line key ++ typedStrokes (editKey line key) keys

/-- **A line is on the paper**, from where the pen was: its characters are in the row, behind the
cursor there is nothing new but spaces, and nothing else is changed. -/
structure Echoed (p₀ p : Paper α) (line : List UInt8) : Prop where
  row : p.line = p₀.line
  column : p.column = p₀.column + line.length
  shown : ∀ k (h : k < line.length), p.cells p₀.line (p₀.column + k) = glyph (line)[k]
  kept : ∀ l c, (l ≠ p₀.line ∨ c < p₀.column) → p.cells l c = p₀.cells l c
  behind : ∀ c, p₀.column + line.length < c →
    p.cells p₀.line c = p₀.cells p₀.line c ∨ p.cells p₀.line c = glyph (char ' ')

variable {glyph cursor} {feed : Paper α → Paper α} {w : Nat} {p₀ p : Paper α} {line : List UInt8}

/-- A cell is drawn, and the cursor behind it. -/
theorem typed_paper (hnext : p.column + 1 < w) (a : α) :
    p.strokes feed w [.put a, .mark cursor] =
      Paper.set { p.set a with column := p.column + 1 } (cursor (p.cells p.line (p.column + 1))) := by
  simp [Paper.strokes, Paper.stroke_put hnext, Paper.stroke_mark, Paper.cell, Paper.set_apply]

/-- Two cells are drawn, and the cursor over the first of them. -/
theorem wiped_paper (hnext : p.column + 1 + 1 < w) (a : α) :
    p.strokes feed w [.put a, .put a, .back, .back, .mark cursor] =
      Paper.set { Paper.set { p.set a with column := p.column + 1 } a with column := p.column }
        (cursor a) := by
  have hhere : p.column + 1 < w := Nat.lt_of_succ_lt hnext
  have hput : Paper.stroke feed w ⟨(p.set a).cells, p.line, p.column + 1⟩ (.put a) =
      ⟨(Paper.set ⟨(p.set a).cells, p.line, p.column + 1⟩ a).cells, p.line, p.column + 1 + 1⟩ :=
    if_pos hnext
  simp [Paper.strokes, Paper.stroke_put hhere, hput, Paper.stroke_mark, Paper.stroke_back,
    Paper.cell, Paper.set_apply]

/-- A character is typed. -/
theorem Echoed.type (h : Echoed glyph p₀ p line) (hroom : p₀.column + line.length + 1 < w)
    {key : UInt8} : Echoed glyph p₀
      (p.strokes feed w [.put (glyph key), .mark cursor]) (line ++ [key]) := by
  have hline := h.row
  have hcolumn := h.column
  rw [typed_paper (by omega)]
  refine ⟨hline, ?_, fun k hk => ?_, fun l c hlc => ?_, fun c hc => ?_⟩
  · simp [hcolumn, Nat.add_assoc]
  · rw [List.length_append, List.length_singleton] at hk
    simp only [Paper.set_apply, Paper.line_set, hline, hcolumn, true_and]
    rw [if_neg (by omega)]
    by_cases hlast : k = line.length
    · subst hlast
      simp
    · rw [if_neg (by omega), h.shown k (by omega), List.getElem_append_left]
  · simp only [Paper.set_apply, Paper.line_set, hline, hcolumn]
    rw [if_neg (by omega), if_neg (by omega)]
    exact h.kept l c hlc
  · rw [List.length_append, List.length_singleton] at hc
    simp only [Paper.set_apply, Paper.line_set, hline, hcolumn, true_and]
    rw [if_neg (by omega), if_neg (by omega)]
    exact h.behind c (by omega)

/-- The last character is taken back. -/
theorem Echoed.erase (h : Echoed glyph p₀ p line) (hne : line ≠ [])
    (hroom : p₀.column + line.length + 1 < w) : Echoed glyph p₀
      (p.strokes feed w [.back, .put (glyph (char ' ')), .put (glyph (char ' ')), .back, .back,
        .mark cursor]) line.dropLast := by
  have hline := h.row
  have hcolumn := h.column
  have hpos := List.length_pos_of_ne_nil hne
  have hwiped := @wiped_paper α cursor feed w { p with column := p.column - 1 }
    (show p.column - 1 + 1 + 1 < w by omega) (glyph (char ' '))
  have hstrokes : p.strokes feed w [.back, .put (glyph (char ' ')), .put (glyph (char ' ')), .back,
      .back, .mark cursor] = Paper.strokes feed w { p with column := p.column - 1 }
        [.put (glyph (char ' ')), .put (glyph (char ' ')), .back, .back, .mark cursor] := rfl
  rw [hstrokes, hwiped]
  refine ⟨hline, ?_, fun k hk => ?_, fun l c hlc => ?_, fun c hc => ?_⟩
  · simp only [Paper.column_set, List.length_dropLast]
    omega
  · rw [List.length_dropLast] at hk
    simp only [Paper.set_apply, Paper.line_set, hline, hcolumn, true_and]
    rw [if_neg (by omega), if_neg (by omega), if_neg (by omega), h.shown k (by omega),
      List.getElem_dropLast]
  · simp only [Paper.set_apply, Paper.line_set, hline, hcolumn]
    rw [if_neg (by omega), if_neg (by omega), if_neg (by omega)]
    exact h.kept l c hlc
  · rw [List.length_dropLast] at hc
    simp only [Paper.set_apply, Paper.line_set, hline, hcolumn, true_and]
    rw [if_neg (by omega)]
    split
    · exact Or.inr rfl
    · rw [if_neg (by omega)]
      exact h.behind c (by omega)

/-- **Keys are typed** in a row that has room for them. -/
theorem Echoed.typed {keys : List UInt8} (h : Echoed glyph p₀ p line)
    (hroom : ∀ pre, pre <+: keys → p₀.column + (pre.foldl editKey line).length + 1 < w) :
    Echoed glyph p₀ (p.strokes feed w (typedStrokes glyph cursor line keys))
      (keys.foldl editKey line) := by
  induction keys generalizing line p with
  | nil => exact h
  | cons key keys ih =>
    have hhere : p₀.column + line.length + 1 < w := hroom [] List.nil_prefix
    have hstep : Echoed glyph p₀ (p.strokes feed w (keyStrokes glyph cursor line key))
        (editKey line key) := by
      unfold keyStrokes editKey
      split
      · split
        · next hempty =>
          subst hempty
          exact h
        · next hne => exact h.erase hne hhere
      · exact h.type hhere
    have hrest := ih hstep fun pre hpre => hroom (key :: pre) (List.cons_prefix_cons.mpr ⟨rfl, hpre⟩)
    simpa [typedStrokes, Paper.strokes] using hrest

end

/-! ## 2. What the shell prints -/

/-- A key that is shown. -/
def Printable (key : UInt8) : Prop := 0x20 ≤ key ∧ key ≤ 0x7e

instance (key : UInt8) : Decidable (Printable key) := inferInstanceAs (Decidable (_ ∧ _))

theorem printable_space : Printable (char ' ') := by decide

/-- The texts that are printed for a key behind a line, as items. -/
def keyItems (line : List UInt8) (key : UInt8) : List (List Item) :=
  if key = backspace then
    if line = [] then []
    else [[.backspace, .glyph (char ' ') printable_space, .glyph (char ' ') printable_space,
      .backspace, .backspace]]
  else if h : Printable key then [[.glyph key h]] else []

/-- The texts for keys. -/
def typedItems : List UInt8 → List UInt8 → List (List Item)
  | _, [] => []
  | line, key :: keys => keyItems line key ++ typedItems (editKey line key) keys

/-- **The key loop prints these texts.** -/
theorem Holds.printed {keys : List UInt8} {l : KeyLoop} {line : List UInt8} (h : Holds l line)
    (hkeys : ∀ k ∈ keys, k = backspace ∨ Printable k)
    (hfits : ∀ pre, pre <+: keys → (pre.foldl editKey line).length ≤ 255) :
    (l.keys keys).printed = l.printed ++ (typedItems line keys).map spellItems := by
  induction keys generalizing l line with
  | nil => simp [KeyLoop.keys, typedItems]
  | cons key keys ih =>
    have hstep := h.key key (hfits [key] (List.cons_prefix_cons.mpr ⟨rfl, List.nil_prefix⟩))
    have hprinted : (l.key key).printed = l.printed ++ (keyItems line key).map spellItems := by
      simp only [KeyLoop.key, keyItems, h.length]
      by_cases hback : key = backspace
      · rw [if_pos hback, if_pos hback]
        by_cases hempty : line = []
        · simp [hempty]
        · rw [if_pos (List.length_pos_of_ne_nil hempty), if_neg hempty]
          rfl
      · have hprintable := (hkeys key List.mem_cons_self).resolve_left hback
        rw [if_neg hback, if_neg hback, dif_pos hprintable]
        rfl
    have hrest := ih hstep (fun k hk => hkeys k (List.mem_cons_of_mem key hk)) fun pre hpre =>
      hfits (key :: pre) (List.cons_prefix_cons.mpr ⟨rfl, hpre⟩)
    rw [typedItems, List.map_append, ← List.append_assoc, ← hprinted]
    exact hrest

/-- The texts are short. -/
theorem length_typedItems : ∀ (keys line : List UInt8), ∀ items ∈ typedItems line keys,
    (spellItems items).length < indexTurns := by
  intro keys
  induction keys with
  | nil => exact fun _ _ hin => absurd hin List.not_mem_nil
  | cons key keys ih =>
    intro line items hin
    rcases List.mem_append.mp hin with hin | hin
    · unfold keyItems at hin
      split_ifs at hin
      · cases hin
      · rw [List.mem_singleton.mp hin]
        decide
      · rw [List.mem_singleton.mp hin]
        exact (by decide : 1 < indexTurns)
      · cases hin
    · exact ih _ items hin

/-- The texts draw what keys draw. -/
theorem strokes_typedItems (t : Tty) : ∀ (keys line : List UInt8),
    (∀ k ∈ keys, k = backspace ∨ Printable k) →
      (typedItems line keys).flatMap (textStrokes t) =
        typedStrokes (fun c => glyphPicture t c.toNat) (cursorPicture t) line keys := by
  intro keys
  induction keys with
  | nil => exact fun _ _ => rfl
  | cons key keys ih =>
    intro line hkeys
    rw [typedItems, typedStrokes, List.flatMap_append,
      ih _ fun k hk => hkeys k (List.mem_cons_of_mem key hk)]
    congr 1
    unfold keyItems keyStrokes
    by_cases hback : key = backspace
    · rw [if_pos hback, if_pos hback]
      split <;> rfl
    · have hprintable := (hkeys key List.mem_cons_self).resolve_left hback
      rw [if_neg hback, if_neg hback, dif_pos hprintable]
      rfl

/-- The backspaces of the texts stay in the row. -/
theorem backs_typedItems {w x : Nat} : ∀ (keys line : List UInt8),
    (∀ k ∈ keys, k = backspace ∨ Printable k) →
    (∀ pre, pre <+: keys → x + (pre.foldl editKey line).length + 1 < w) →
      Backs w (x + line.length) (typedItems line keys).flatten := by
  intro keys
  induction keys with
  | nil => exact fun _ _ _ => trivial
  | cons key keys ih =>
    intro line hkeys hroom
    have hhere : x + line.length + 1 < w := hroom [] List.nil_prefix
    have hrest := ih (editKey line key) (fun k hk => hkeys k (List.mem_cons_of_mem key hk))
      fun pre hpre => hroom (key :: pre) (List.cons_prefix_cons.mpr ⟨rfl, hpre⟩)
    rw [typedItems, List.flatten_append]
    generalize (typedItems (editKey line key) keys).flatten = rest at hrest ⊢
    by_cases hback : key = backspace
    · rw [editKey, if_pos hback, List.length_dropLast] at hrest
      rw [keyItems, if_pos hback]
      by_cases hempty : line = []
      · subst hempty
        exact hrest
      · obtain ⟨n, hn⟩ := Nat.exists_eq_succ_of_ne_zero (Nat.ne_of_gt
          (List.length_pos_of_ne_nil hempty))
        have hx : x + line.length = x + n + 1 := by omega
        have hfirst : x + n + 1 < w := by omega
        have hsecond : x + n + 1 + 1 < w := by omega
        rw [hn, Nat.succ_sub_one] at hrest
        rw [if_neg hempty, hx]
        simpa [Backs, hfirst, hsecond] using hrest
    · have hprintable := (hkeys key List.mem_cons_self).resolve_left hback
      rw [editKey, if_neg hback, List.length_append, List.length_singleton,
        ← Nat.add_assoc] at hrest
      rw [keyItems, if_neg hback, dif_pos hprintable]
      simpa [Backs, hhere] using hrest

/-! ## 3. The screen -/

/-- **The row of the cursor shows a line**, from column `x` on, and nothing else is changed on the
screen but for spaces behind the cursor. -/
structure ShowsLine (g : VbeModeInfo) (t t' : Tty) (line : List UInt8) : Prop where
  row : t'.y = t.y
  column : t'.x = t.x + line.length
  shown : ∀ k (h : k < line.length),
    picture g t.font t'.mem t.y (t.x + k) = glyphPicture t (line)[k].toNat
  kept : ∀ r < pageRows g t.font, ∀ c < xLimit g t.font, (r ≠ t.y ∨ c < t.x) →
    picture g t.font t'.mem r c = picture g t.font t.mem r c
  behind : ∀ c < xLimit g t.font, t.x + line.length < c →
    picture g t.font t'.mem t.y c = picture g t.font t.mem t.y c ∨
      picture g t.font t'.mem t.y c = glyphPicture t (char ' ').toNat

/-- **What is typed is stored and shown.**  Printable keys and backspaces, in a row with room for
the line and the cursor: `cmdString` holds the edited line, the texts that were printed go through
`terminal_write`, and then the row shows the same line. -/
theorem typed_line_shown (g : VbeModeInfo) (t : Tty) (colour : Nat) (l : KeyLoop)
    (keys : List UInt8) (hdisplay : Display g t) (hcursor : OnScreen g t.font t)
    (hmargin : Margin g t colour) (hstart : l.inputLength = 0)
    (hkeys : ∀ k ∈ keys, k = backspace ∨ Printable k) (hfits : Fits keys)
    (hroom : ∀ pre, pre <+: keys → t.x + (edited pre).length + 1 < xLimit g t.font) :
    Holds (l.keys keys) (edited keys) ∧
    ∃ items, (l.keys keys).printed = l.printed ++ items.map spellItems ∧
      ∀ texts : List (List Item × Bytes), texts.map Prod.fst = items →
        ∃ t', writeTexts g t texts = some t' ∧ ShowsLine g t t' (edited keys) := by
  have hheld : Holds l [] := ⟨hstart, spells_nil⟩
  refine ⟨hheld.keys hfits, typedItems [] keys, hheld.printed hkeys hfits, fun texts htexts => ?_⟩
  have hpage : OnPage g t (page g t) colour :=
    ⟨hdisplay, hcursor, rfl, rfl, fun _ _ _ _ => rfl, hmargin⟩
  have hbacks : Backs (xLimit g t.font) t.x (texts.flatMap Prod.fst) := by
    rw [List.flatMap_def, htexts]
    exact backs_typedItems keys [] hkeys hroom
  have hlen : ∀ text ∈ texts, (spellItems text.1).length < indexTurns := fun text htext =>
    length_typedItems keys [] text.1 (htexts ▸ List.mem_map_of_mem htext)
  obtain ⟨t', hwrite, htools, hlast⟩ := hpage.texts texts hbacks hlen
  have hfont := hdisplay.sameFont htools
  have hstrokes : (texts.flatMap fun text => textStrokes t text.1) = typedStrokes
      (fun c => glyphPicture t c.toNat) (cursorPicture t) [] keys := by
    rw [← strokes_typedItems t keys [] hkeys, ← htexts, List.flatMap_map]
  rw [hstrokes] at hlast
  have hechoed : Echoed (fun c => glyphPicture t c.toNat) (page g t)
      (drawnPage g t.font colour (page g t) (typedStrokes (fun c => glyphPicture t c.toNat)
        (cursorPicture t) [] keys)) (edited keys) :=
    (show Echoed _ (page g t) (page g t) [] from ⟨rfl, rfl, fun k hk => absurd hk
      (Nat.not_lt_zero k), fun _ _ _ => rfl, fun _ _ => Or.inl rfl⟩).typed hroom
  generalize drawnPage g t.font colour (page g t) _ = p at hlast hechoed
  have hcells : ∀ r < pageRows g t.font, ∀ c < xLimit g t.font,
      picture g t.font t'.mem r c = p.cells r c := by
    have hcells := hlast.cells
    rw [hfont] at hcells
    exact fun r hr c hc => (hcells r hr c hc).symm
  have hwide : t.x + (edited keys).length + 1 < xLimit g t.font := hroom keys List.prefix_rfl
  refine ⟨t', hwrite, hlast.line.symm.trans hechoed.row, hlast.column.symm.trans hechoed.column,
    fun k hk => ?_, fun r hr c hc hother => ?_, fun c hc hbehind => ?_⟩
  · rw [hcells t.y hcursor.y _ (by omega)]
    exact hechoed.shown k hk
  · rw [hcells r hr c hc]
    exact hechoed.kept r c hother
  · rw [hcells t.y hcursor.y c hc]
    exact hechoed.behind c hbehind

/-- The keys of `ls` on a display of 1024 by 768 pixels. -/
theorem typed_line_shown_ls : Holds (firstLoop.keys lsKeys) (edited lsKeys) ∧
    ∃ items, (firstLoop.keys lsKeys).printed = items.map spellItems ∧
      ∀ texts : List (List Item × Bytes), texts.map Prod.fst = items →
        ∃ t', writeTexts mode1024 screenTerminal texts = some t' ∧
          ShowsLine mode1024 screenTerminal t' (edited lsKeys) := by
  refine typed_line_shown mode1024 screenTerminal 0 firstLoop lsKeys screenTerminal_display
    screenTerminal_onScreen screenTerminal_margin rfl (by decide +kernel)
    (fits_of_length (by decide)) fun pre hpre => ?_
  have hlength : (edited pre).length ≤ 4 := (length_edited pre).trans hpre.length_le
  have hlimit : xLimit mode1024 screenTerminal.font = 128 := by decide
  have hcolumn : screenTerminal.x = 0 := rfl
  rw [hlimit, hcolumn]
  omega

end AmateurOs.Shell
