/-
# What the screen shows

A text that scrolls is on the screen as it would be on a roll of paper, of which the screen shows
the end (`screen_shows`).  The page is the screen without its last row: the cursor never gets there,
and it is what comes in below when the rows move up.  The lines of the screen under the last row
move with it, so one colour is taken for granted there (`Margin`); the screen has it once it is
cleared (`cleared_shows`).

Every call ends with the cursor drawn at the foot of its cell.  It stays there when the next text
begins with a line end, so on the paper it is a mark like the characters.
-/
import AmateurOs.Lib.Paper
import AmateurOs.Terminal.Cells
import AmateurOs.Terminal.Colours

namespace AmateurOs.Terminal

open AmateurOs.Lib
open AmateurOs.Fonts
open AmateurOs.Fs (cstr cstr_lt)

/-! ## 1. Strokes -/

/-- What an item draws. -/
def Item.stroke (t : Tty) : Item → Stroke Picture
  | .glyph c _ => .put (glyphPicture t c.toNat)
  | .carriageReturn => .home
  | .lineFeed => .down
  | .backspace => .back

/-- What a text draws: its items, and the cursor behind them. -/
def textStrokes (t : Tty) (items : List Item) : List (Stroke Picture) :=
  items.map (Item.stroke t) ++ [.mark (cursorPicture t)]

theorem Display.stroke_same {g : VbeModeInfo} {t t' : Tty} (h : Display g t)
    (hsame : SameTools t t') (item : Item) : item.stroke t' = item.stroke t := by
  cases item with
  | glyph c hc =>
    have hlo : 32 ≤ c.toNat := hc.1
    have hhi : c.toNat ≤ 126 := hc.2
    unfold Item.stroke
    simp only
    rw [h.glyph_same hsame (by omega)]
  | carriageReturn | lineFeed | backspace => rfl

/-! ## 2. The terminal and the page -/

/-- The rows that are written. -/
def pageRows (g : VbeModeInfo) (f : Font) : Nat := yLimit g f - 1

/-- The screen as a page. -/
def page (g : VbeModeInfo) (t : Tty) : Paper Picture where
  cells := picture g t.font t.mem
  line := t.y
  column := t.x

/-- Nothing but one colour behind the rows that are written. -/
def Margin (g : VbeModeInfo) (t : Tty) (colour : Nat) : Prop :=
  ∀ py, pageRows g t.font * t.font.height ≤ py → py < g.yResolution.toNat →
    ∀ px < g.xResolution.toNat, pixel g t.mem px py = colour

/-- A cell of one colour. -/
def blank (f : Font) (colour : Nat) : Picture := frame f fun _ _ => colour

/-- **The terminal shows a page**, and one colour below it. -/
structure OnPage (g : VbeModeInfo) (t : Tty) (p : Paper Picture) (colour : Nat) : Prop where
  display : Display g t
  cursor : OnScreen g t.font t
  line : p.line = t.y
  column : p.column = t.x
  cells : ∀ r < pageRows g t.font, ∀ c < xLimit g t.font,
    p.cells r c = picture g t.font t.mem r c
  margin : Margin g t colour

section

variable {g : VbeModeInfo} {t t' : Tty} {p : Paper Picture} {colour : Nat}
  (h : OnPage g t p colour)

include h

/-- **A cell is drawn.** -/
theorem OnPage.set {a : Picture} (hdrawn : CellDrawn g t t' (frame t.font a)) :
    OnPage g t' (p.set (frame t.font a)) colour := by
  have hfont := h.display.sameFont hdrawn.tools
  obtain ⟨hx, hy⟩ := h.cursor
  have hrows : pageRows g t.font < yLimit g t.font := by
    unfold pageRows
    omega
  refine ⟨h.display.next hdrawn.tools, ?_, ?_, ?_, fun r hr c hc => ?_, ?_⟩
  · rw [hfont]
    exact ⟨by rw [hdrawn.column]; exact hx, by rw [hdrawn.row]; exact hy⟩
  · exact h.line.trans hdrawn.row.symm
  · exact h.column.trans hdrawn.column.symm
  · rw [hfont] at hr hc ⊢
    rw [Paper.set_apply, h.line, h.column]
    unfold picture
    by_cases hat : r = t.y ∧ c = t.x
    · obtain ⟨rfl, rfl⟩ := hat
      rw [if_pos ⟨rfl, rfl⟩]
      exact frame_congr fun line hline x hx' => by
        rw [hdrawn.inside line hline x hx', frame_apply hline hx']
    · rw [if_neg hat, h.cells r hr c hc]
      refine frame_congr fun line hline x hx' => ?_
      refine (hdrawn.outside _ (cell_lt hc hx') _ (line_lt (Nat.lt_trans hr hrows) hline)
        fun hlo hhi => ?_).symm
      -- another row is above or below, another column beside
      obtain rfl : r = t.y := by
        rcases Nat.lt_trichotomy r t.y with hlt | heq | hgt
        · have := Nat.mul_le_mul_right t.font.height hlt
          rw [Nat.succ_mul] at this
          omega
        · exact heq
        · have := Nat.mul_le_mul_right t.font.height hgt
          rw [Nat.succ_mul] at this
          omega
      rcases Nat.lt_trichotomy c t.x with hlt | heq | hgt
      · have := Nat.mul_le_mul_right t.font.width hlt
        rw [Nat.succ_mul] at this
        omega
      · exact absurd ⟨rfl, heq⟩ hat
      · have := Nat.mul_le_mul_right t.font.width hgt
        rw [Nat.succ_mul] at this
        omega
  · unfold Margin
    rw [hfont]
    intro py hlo hhi px hpx
    have habove : (t.y + 1) * t.font.height ≤ pageRows g t.font * t.font.height :=
      Nat.mul_le_mul_right _ hy
    rw [Nat.succ_mul] at habove
    rw [hdrawn.outside px hpx py hhi fun _ hlt => absurd hlt (by omega)]
    exact h.margin py hlo hhi px hpx

/-- The cursor is moved in its row. -/
theorem OnPage.move {x : Nat} (hx : x < xLimit g t.font) :
    OnPage g { t with x := x } { p with column := x } colour :=
  ⟨⟨h.display.bits, h.display.pitch, h.display.memory, h.display.width, h.display.height,
    h.display.size, h.display.apart⟩, ⟨hx, h.cursor.y⟩, h.line, rfl, h.cells, h.margin⟩

/-- **A line down.** -/
theorem OnPage.feed : OnPage g (lineFeed g t.font t)
    (p.roll (pageRows g t.font) fun _ => blank t.font colour) colour ∧
      SameTools t (lineFeed g t.font t) := by
  obtain ⟨hx, hy⟩ := h.cursor
  have hd := h.display
  have hlimit := @yLimit_lt g t.font
  have hrows : pageRows g t.font + 1 = yLimit g t.font := by
    unfold pageRows
    omega
  have hnext : u32 (t.y + 1) = t.y + 1 := u32_eq (by omega)
  have hlast : sub32 (yLimit g t.font) 1 = pageRows g t.font := sub32_eq (by omega) (by omega)
  have hback : sub32 (t.y + 1) 1 = t.y := sub32_eq (by omega) (by omega)
  unfold lineFeed Paper.roll
  simp only [hnext, hlast, hback, h.line]
  by_cases hroom : t.y + 1 < pageRows g t.font
  · rw [if_pos hroom, if_neg (Nat.not_le.mpr hroom)]
    refine ⟨⟨⟨hd.bits, hd.pitch, hd.memory, hd.width, hd.height, hd.size, hd.apart⟩, ⟨hx, hroom⟩,
      ?_, h.column, h.cells, h.margin⟩, fun _ _ => rfl, rfl, rfl, rfl⟩
    show p.line + 1 = t.y + 1
    rw [h.line]
  · rw [if_neg hroom, if_pos (Nat.not_lt.mp hroom)]
    obtain ⟨htools, hpixels⟩ := hd.scroll (by omega)
    have hfont : (Terminal.scroll g t.font t).font = t.font := hd.sameFont htools
    have hstays := hd.next htools
    -- a line below the page has the colour of the margin
    have hbelow : ∀ py, pageRows g t.font * t.font.height ≤ py + t.font.height →
        py + t.font.height < g.yResolution.toNat → ∀ px < g.xResolution.toNat,
          pixel g (Terminal.scroll g t.font t).mem px py = colour := by
      intro py hlo hhi px hpx
      rw [hpixels px hpx py (by omega), if_pos hhi]
      exact h.margin _ hlo hhi px hpx
    have hmoved : ∀ r < pageRows g t.font, ∀ c < xLimit g t.font,
        (if r + 1 < pageRows g t.font then p.cells (r + 1) else fun _ => blank t.font colour) c =
          picture g t.font (Terminal.scroll g t.font t).mem r c := by
      intro r hr c hc
      have hline : ∀ line, r * t.font.height + line + t.font.height =
          (r + 1) * t.font.height + line := fun line => by
        rw [Nat.succ_mul, Nat.add_right_comm]
      have hin : ∀ line < t.font.height,
          r * t.font.height + line + t.font.height < g.yResolution.toNat := fun line hl => by
        rw [hline]
        exact line_lt (by omega) hl
      split
      · next hlt =>
        rw [h.cells (r + 1) hlt c hc]
        refine frame_congr fun line hl x hx' => ?_
        rw [hpixels _ (cell_lt hc hx') _ (Nat.lt_of_le_of_lt (Nat.le_add_right _ _) (hin line hl)),
          if_pos (hin line hl), hline]
      · next hge =>
        have hend : r + 1 = pageRows g t.font := by omega
        refine frame_congr fun line hl x hx' => (hbelow _ ?_ (hin line hl) _ (cell_lt hc hx')).symm
        rw [hline, hend]
        exact Nat.le_add_right _ _
    have hmargin : Margin g (Terminal.scroll g t.font t) colour := by
      unfold Margin
      rw [hfont]
      intro py hlo hhi px hpx
      by_cases hin : py + t.font.height < g.yResolution.toNat
      · exact hbelow py (Nat.le_add_right_of_le hlo) hin px hpx
      · rw [hpixels px hpx py hhi, if_neg hin]
        exact h.margin py hlo hhi px hpx
    exact ⟨⟨⟨hstays.bits, hstays.pitch, hstays.memory, hstays.width, hstays.height, hstays.size,
      hstays.apart⟩, hfont.symm ▸ ⟨hx, hy⟩, rfl, h.column, hfont.symm ▸ hmoved, hmargin⟩,
      htools.font, htools.fg, htools.bg, htools.cursor⟩

/-- **One item** is its stroke. -/
theorem OnPage.item (item : Item) {items : List Item}
    (hbacks : Backs (xLimit g t.font) t.x (item :: items)) :
    OnPage g (item.apply g t.font t) (p.stroke (Paper.roll (pageRows g t.font)
      fun _ => blank t.font colour) (xLimit g t.font) (item.stroke t)) colour ∧
      SameTools t (item.apply g t.font t) := by
  have hlimit := @xLimit_lt g t.font
  have hpos := Nat.zero_lt_of_lt h.cursor.x
  cases item with
  | glyph c hc =>
    have hlo : 32 ≤ c.toNat := hc.1
    have hhi : c.toNat ≤ 126 := hc.2
    have hnext : u32 (t.x + 1) = t.x + 1 := u32_eq (by have := h.cursor.x; omega)
    have hrow := h.cursor.y
    have hdrawn := h.display.drawChar h.cursor.x (by omega)
      (show 0 < c.toNat ∧ c.toNat ≤ 127 by omega)
    have hset : OnPage g (drawChar g t.font t c) (p.set (glyphPicture t c.toNat)) colour :=
      h.set hdrawn
    have hfont := h.display.sameFont hdrawn.tools
    unfold Item.apply printChar
    simp only [Item.stroke, Paper.stroke, h.column, drawChar_x, hnext]
    by_cases hlt : t.x + 1 < xLimit g t.font
    · rw [if_pos hlt, if_pos hlt]
      exact ⟨hset.move (by rw [hfont]; exact hlt), hdrawn.tools.font, rfl, rfl, rfl⟩
    · rw [if_neg hlt, if_neg hlt]
      have hfeed := (hset.move (show 0 < xLimit g (drawChar g t.font t c).font by
        rw [hfont]; exact hpos)).feed
      have hfont' : Tty.font { drawChar g t.font t c with x := 0 } = t.font := hfont
      rw [hfont'] at hfeed
      have htools : SameTools t { drawChar g t.font t c with x := 0 } :=
        ⟨hdrawn.tools.font, rfl, rfl, rfl⟩
      exact ⟨hfeed.1, h.display.same_trans htools hfeed.2⟩
  | carriageReturn => exact ⟨h.move hpos, fun _ _ => rfl, rfl, rfl, rfl⟩
  | lineFeed => exact h.feed
  | backspace =>
    have hx := h.cursor.x
    have hback : sub32 t.x 1 = t.x - 1 := sub32_eq (by omega) hbacks.1
    unfold Item.apply
    simp only [Item.stroke, Paper.stroke, h.column, hback]
    exact ⟨h.move (by omega), fun _ _ => rfl, rfl, rfl, rfl⟩

end

/-! ## 3. Texts -/

section

variable {g : VbeModeInfo} {colour : Nat}

/-- The page after some strokes. -/
def drawnPage (g : VbeModeInfo) (f : Font) (colour : Nat) (p : Paper Picture)
    (ss : List (Stroke Picture)) : Paper Picture :=
  p.strokes (Paper.roll (pageRows g f) fun _ => blank f colour) (xLimit g f) ss

/-- **The items of a text.** -/
theorem OnPage.items {rest : List Item} : ∀ (items : List Item) {t : Tty} {p : Paper Picture},
    OnPage g t p colour → Backs (xLimit g t.font) t.x (items ++ rest) →
    OnPage g (items.foldl (Item.apply g t.font) t)
        (drawnPage g t.font colour p (items.map (Item.stroke t))) colour ∧
      SameTools t (items.foldl (Item.apply g t.font) t) ∧
      Backs (xLimit g t.font) (items.foldl (Item.apply g t.font) t).x rest := by
  intro items
  induction items with
  | nil => exact fun h hbacks => ⟨h, ⟨fun _ _ => rfl, rfl, rfl, rfl⟩, hbacks⟩
  | cons item items ih =>
    intro t p h hbacks
    obtain ⟨hnext, htools⟩ := h.item item hbacks
    have hfont := h.display.sameFont htools
    have hrest : Backs (xLimit g (item.apply g t.font t).font) (item.apply g t.font t).x
        (items ++ rest) := by
      rw [hfont]
      exact (h.cursor.item hbacks).2
    obtain ⟨hlast, htools', hbacks'⟩ := ih hnext hrest
    have hstrokes : items.map (Item.stroke (item.apply g t.font t)) = items.map (Item.stroke t) :=
      List.map_congr_left fun i _ => h.display.stroke_same htools i
    rw [hfont] at hlast hbacks' htools'
    rw [hstrokes] at hlast
    exact ⟨hlast, h.display.same_trans htools htools', hbacks'⟩

/-- A text of items ends behind them. -/
theorem terminalWrite_items (t : Tty) (items : List Item) (after : Bytes)
    (hlen : (spellItems items).length < indexTurns) :
    terminalWrite g t (cstr (spellItems items) after) (spellItems items).length =
      some ((spellItems items).length,
        Terminal.drawCursor g (items.foldl (Item.apply g t.font) t).showCursor
          (items.foldl (Item.apply g t.font) t)) := by
  have hloop : ∀ (items : List Item) {str : Bytes} {fuel i len : Nat} {s : Tty},
      Spells str i (spellItems items) → i + (spellItems items).length = len →
      (spellItems items).length < fuel → writeLoop g t.font str len fuel i s =
        some (len, items.foldl (Item.apply g t.font) s) := by
    intro items
    induction items with
    | nil =>
      intro str fuel i len s _ hend hfuel
      obtain ⟨fuel, rfl⟩ := Nat.exists_eq_succ_of_ne_zero (Nat.ne_of_gt hfuel)
      obtain rfl : i = len := hend
      unfold writeLoop
      rw [if_neg fun h => Nat.lt_irrefl i h.1]
      rfl
    | cons item items ih =>
      intro str fuel i len s hspell hend hfuel
      obtain ⟨fuel, rfl⟩ := Nat.exists_eq_succ_of_ne_zero (Nat.ne_of_gt (Nat.zero_lt_of_lt hfuel))
      rw [spellItems_cons] at hspell hend hfuel
      rw [List.length_append] at hend hfuel
      obtain ⟨hhere, hrest⟩ := spells_append.mp hspell
      obtain ⟨hnul, hdone⟩ := @writeAt_item g t.font s str i item hhere
      have hpos := item.chars_pos
      have hnext : i + item.chars.length - 1 + 1 = i + item.chars.length := by omega
      unfold writeLoop
      rw [if_pos ⟨by omega, hnul⟩, hdone]
      show writeLoop g t.font str len fuel (i + item.chars.length - 1 + 1) _ = _
      rw [hnext]
      exact ih hrest (by omega) (by omega)
  have hspell : Spells (cstr (spellItems items) after) 0 (spellItems items) := fun k hk => by
    rw [Nat.zero_add, cstr_lt hk]
  unfold terminalWrite
  rw [hloop items hspell (Nat.zero_add _) hlen]
  rfl

/-- **A text** is its strokes. -/
theorem OnPage.text {t : Tty} {p : Paper Picture} {items rest : List Item}
    (h : OnPage g t p colour) (hbacks : Backs (xLimit g t.font) t.x (items ++ rest)) {t' : Tty}
    (ht' : t' = Terminal.drawCursor g (items.foldl (Item.apply g t.font) t).showCursor
      (items.foldl (Item.apply g t.font) t)) :
    OnPage g t' (drawnPage g t.font colour p (textStrokes t items)) colour ∧ SameTools t t' ∧
      Backs (xLimit g t.font) t'.x rest := by
  obtain ⟨hitems, htools, hrest⟩ := h.items items hbacks
  have hcursor := h.display.cursor_same htools
  generalize items.foldl (Item.apply g t.font) t = t₁ at *
  have hrows := hitems.cursor.y
  have hdrawn := hitems.display.drawCursor hitems.cursor.x (by omega)
  rw [← ht'] at hdrawn
  have hlast : OnPage g t' ((drawnPage g t.font colour p (items.map (Item.stroke t))).set
      (cursorPicture t₁ (picture g t₁.font t₁.mem t₁.y t₁.x))) colour := hitems.set hdrawn
  have hcell : picture g t₁.font t₁.mem t₁.y t₁.x =
      (drawnPage g t.font colour p (items.map (Item.stroke t))).cell := by
    unfold Paper.cell
    rw [hitems.line, hitems.column]
    exact (hitems.cells _ hrows _ hitems.cursor.x).symm
  have hstrokes : drawnPage g t.font colour p (textStrokes t items) =
      (drawnPage g t.font colour p (items.map (Item.stroke t))).set (cursorPicture t
        (drawnPage g t.font colour p (items.map (Item.stroke t))).cell) := by
    unfold textStrokes drawnPage Paper.strokes
    rw [List.foldl_append]
    rfl
  rw [hstrokes, ← hcursor, ← hcell]
  exact ⟨hlast, h.display.same_trans htools hdrawn.tools, by rw [hdrawn.column]; exact hrest⟩

end

/-- Texts written one after the other, each with what is behind it in memory. -/
def writeTexts (g : VbeModeInfo) (t : Tty) (texts : List (List Item × Bytes)) :
    Option Tty :=
  texts.foldlM (fun t text => (terminalWrite g t (cstr (spellItems text.1) text.2)
    (spellItems text.1).length).map Prod.snd) t

/-- **Texts** are their strokes, one after the other. -/
theorem OnPage.texts {g : VbeModeInfo} {colour : Nat} : ∀ (texts : List (List Item × Bytes))
    {t : Tty} {p : Paper Picture}, OnPage g t p colour →
    Backs (xLimit g t.font) t.x (texts.flatMap Prod.fst) →
    (∀ text ∈ texts, (spellItems text.1).length < indexTurns) →
    ∃ t', writeTexts g t texts = some t' ∧ SameTools t t' ∧ OnPage g t' (drawnPage g t.font colour p
      (texts.flatMap fun text => textStrokes t text.1)) colour := by
  intro texts
  induction texts with
  | nil => exact fun {t p} h _ _ => ⟨t, rfl, ⟨fun _ _ => rfl, rfl, rfl, rfl⟩, h⟩
  | cons text texts ih =>
    intro t p h hbacks hlen
    rw [List.flatMap_cons] at hbacks ⊢
    have hwrite := terminalWrite_items (g := g) t text.1 text.2 (hlen text List.mem_cons_self)
    obtain ⟨hnext, htools, hrest⟩ := h.text hbacks rfl
    generalize Terminal.drawCursor g (text.1.foldl (Item.apply g t.font) t).showCursor
      (text.1.foldl (Item.apply g t.font) t) = t₁ at *
    have hfont := h.display.sameFont htools
    have hstrokes : ∀ items, textStrokes t₁ items = textStrokes t items := fun items => by
      unfold textStrokes
      rw [h.display.cursor_same htools,
        List.map_congr_left fun i _ => h.display.stroke_same htools i]
    obtain ⟨t', hwrites, htools', hlast⟩ := ih hnext (by rw [hfont]; exact hrest)
      fun text ht => hlen text (List.mem_cons_of_mem _ ht)
    refine ⟨t', ?_, h.display.same_trans htools htools', ?_⟩
    · unfold writeTexts at hwrites ⊢
      rw [List.foldlM_cons, hwrite]
      exact hwrites
    · rw [hfont] at hlast
      simp only [hstrokes] at hlast
      unfold drawnPage Paper.strokes at hlast ⊢
      rw [List.foldl_append]
      exact hlast

/-- **The cells are those of the last lines** on the paper that begins with the page. -/
structure ShowsEnd (g : VbeModeInfo) (f : Font) (t : Tty) (paper : Paper Picture) : Prop where
  line : t.y = min paper.line (pageRows g f - 1)
  column : t.x = paper.column
  cells : ∀ r < pageRows g f, ∀ c < xLimit g f,
    picture g f t.mem r c = paper.cells (paper.line + 1 - pageRows g f + r) c

/-- The paper after texts. -/
def written (g : VbeModeInfo) (t : Tty) (paper : Paper Picture)
    (texts : List (List Item × Bytes)) : Paper Picture :=
  paper.strokes Paper.down (xLimit g t.font) (texts.flatMap fun text => textStrokes t text.1)

theorem OnPage.showsEnd {g : VbeModeInfo} {t : Tty} {p : Paper Picture} {colour : Nat}
    (h : OnPage g t p colour) {texts : List (List Item × Bytes)}
    (hbacks : Backs (xLimit g t.font) t.x (texts.flatMap Prod.fst))
    (hlen : ∀ text ∈ texts, (spellItems text.1).length < indexTurns) :
    ∃ t', writeTexts g t texts = some t' ∧ ShowsEnd g t.font t' (written g t
      (p.unrolled (pageRows g t.font) fun _ => blank t.font colour) texts) := by
  obtain ⟨t', hwrite, htools, hlast⟩ := h.texts texts hbacks hlen
  have hfont := h.display.sameFont htools
  obtain ⟨hline, hcolumn, hcells⟩ := @page_shows _ (pageRows g t.font) (xLimit g t.font)
    (fun _ => blank t.font colour) p (texts.flatMap fun text => textStrokes t text.1)
    (h.line ▸ h.cursor.y) (h.column ▸ h.cursor.x)
  refine ⟨t', hwrite, hlast.line.symm.trans hline, hlast.column.symm.trans hcolumn,
    fun r hr c hc => ?_⟩
  have hcell := hlast.cells r (hfont.symm ▸ hr) c (hfont.symm ▸ hc)
  rw [hfont] at hcell
  exact hcell.symm.trans (hcells r hr c hc)

/-! ## 4. The screen cleared -/

/-- `"\eCLS;"`. -/
def clearText : List UInt8 := 0x1b :: text "CLS;"

/-- Paper with nothing on it but the cursor. -/
def clearedPaper (t : Tty) : Paper Picture :=
  Paper.set ⟨fun _ _ => blank t.font (u32 t.userBg), 0, 0⟩
    (cursorPicture t (blank t.font (u32 t.userBg)))

theorem clearedPaper_unrolled (t : Tty) {h : Nat} (hpos : 0 < h) :
    (clearedPaper t).unrolled h (fun _ => blank t.font (u32 t.userBg)) = clearedPaper t := by
  have hcells : (fun l => if l < h then (clearedPaper t).cells l
      else fun _ => blank t.font (u32 t.userBg)) = (clearedPaper t).cells := by
    funext l c
    split
    · rfl
    · unfold clearedPaper
      rw [Paper.set_apply, if_neg fun hl => absurd hl.1 (by show l ≠ 0; omega)]
  unfold Paper.unrolled
  rw [hcells]

/-- **The screen is cleared**, and the cursor drawn in the first cell. -/
theorem Display.cleared {g : VbeModeInfo} {t : Tty} (h : Display g t)
    (hx : 0 < xLimit g t.font) (hy : 0 < pageRows g t.font) (after : Bytes) :
    ∃ t', terminalWrite g t (cstr clearText after) clearText.length = some (clearText.length, t') ∧
      SameTools t t' ∧ OnPage g t' (clearedPaper t) (u32 t.userBg) := by
  obtain ⟨htools, hpixels⟩ := h.clear
  obtain ⟨t₁, ht₁⟩ : ∃ t₁, t₁ = { clearScreen g t with x := 0, y := 0 } := ⟨_, rfl⟩
  have htools₁ : SameTools t t₁ := ht₁ ▸ ⟨htools.font, rfl, rfl, rfl⟩
  have hfont : t₁.font = t.font := h.sameFont htools₁
  have hpixels₁ : ∀ px < g.xResolution.toNat, ∀ py < g.yResolution.toNat,
      pixel g t₁.mem px py = u32 t.userBg := ht₁ ▸ hpixels
  have hat : t₁.x = 0 ∧ t₁.y = 0 := by
    rw [ht₁]
    exact ⟨rfl, rfl⟩
  have hescape : escape g (cstr clearText after) 1 t = some (4, t₁) := by
    have hspell : Spells (cstr clearText after) 1 (text "CLS;") :=
      (spells_cons.mp (spells_cstr clearText after)).2
    have hmem : text "CLS;" ∈ sequences := by decide +kernel
    have hfound := (compareAll_some sequences_length sequences_nonzero sequences_apart
      (Nat.le_add_right 1 4) hmem hspell (by decide)).1
    rw [escape_found (Spells.not_X hspell hmem), hfound, ht₁]
    simp only [applySequence, if_true]
  have hstart : OnPage g t₁ ⟨fun _ _ => blank t.font (u32 t.userBg), 0, 0⟩ (u32 t.userBg) := by
    refine ⟨h.next htools₁, ?_, hat.2.symm, hat.1.symm, fun r hr c hc => ?_, ?_⟩
    · rw [hfont]
      exact ⟨by rw [hat.1]; exact hx, by rw [hat.2]; exact hy⟩
    · rw [hfont] at hr hc ⊢
      refine frame_congr fun line hline x hx' =>
        (hpixels₁ _ (cell_lt hc hx') _ (line_lt ?_ hline)).symm
      unfold pageRows at hr
      omega
    · exact fun py _ hpy px hpx => hpixels₁ px hpx py hpy
  obtain ⟨hlast, htools', -⟩ := @OnPage.text g _ t₁ _ [] [] hstart trivial _ rfl
  have hpaper : drawnPage g t₁.font (u32 t.userBg) ⟨fun _ _ => blank t.font (u32 t.userBg), 0, 0⟩
      (textStrokes t₁ []) = clearedPaper t := by
    unfold textStrokes
    rw [h.cursor_same htools₁]
    rfl
  rw [hpaper] at hlast
  exact ⟨_, terminalWrite_single (show cstr clearText after 0 = 0x1b from rfl) hescape,
    h.same_trans htools₁ htools', hlast⟩

/-! ## 5. A display of 1024 by 768 pixels -/

theorem screenTerminal_display : Display mode1024 screenTerminal :=
  ⟨rfl, rfl, by decide, by decide, by decide, by decide, Or.inl (by decide)⟩

/-- Its frame buffer holds zeros. -/
theorem screenTerminal_margin : Margin mode1024 screenTerminal 0 := by
  intro py _ hpy px hpx
  obtain ⟨haddress, -⟩ := screenTerminal_display.address hpx hpy
  have hbase : mode1024.physicalBasePointer.toNat = 4244635648 := rfl
  have hzero : ∀ k < 4, screenTerminal.mem (pixelAddress mode1024 px py + k) = 0 := by
    intro k _
    have hout : 53250 ≤ pixelAddress mode1024 px py + k := by omega
    show (if _ = fontAddress then 8 else if _ = fontAddress + 1 then 16 else 0) = _
    unfold fontAddress
    rw [if_neg (by omega), if_neg (by omega)]
  exact (@le32_congr _ (fun _ => 0) _ 0 hzero).trans rfl

/-- `a`, and the next line. -/
def shortTexts : List (List Item × Bytes) := [([.glyph 97 (by decide), .lineFeed], fun _ => 0)]

/-! ## 6. The theorems -/

/-- **The screen shows the end of what was written**: texts of less than 2^32 characters, written on
a display with the cursor on the screen and one colour below the page, without a backspace in column
0.  The paper begins with the page. -/
theorem screen_shows (g : VbeModeInfo) (t : Tty) (colour : Nat)
    (texts : List (List Item × Bytes)) (hdisplay : Display g t) (hcursor : OnScreen g t.font t)
    (hmargin : Margin g t colour) (hbacks : Backs (xLimit g t.font) t.x (texts.flatMap Prod.fst))
    (hlen : ∀ text ∈ texts, (spellItems text.1).length < indexTurns) :
    ∃ t', writeTexts g t texts = some t' ∧ ShowsEnd g t.font t' (written g t
      ((page g t).unrolled (pageRows g t.font) fun _ => blank t.font colour) texts) :=
  have hstart : OnPage g t (page g t) colour :=
    ⟨hdisplay, hcursor, rfl, rfl, fun _ _ _ _ => rfl, hmargin⟩
  hstart.showsEnd hbacks hlen

/-- The theorem for `a` and the next line. -/
theorem screen_shows_short : ∃ t', writeTexts mode1024 screenTerminal shortTexts = some t' ∧
    ShowsEnd mode1024 screenTerminal.font t' (written mode1024 screenTerminal
      ((page mode1024 screenTerminal).unrolled (pageRows mode1024 screenTerminal.font)
        fun _ => blank screenTerminal.font 0) shortTexts) :=
  screen_shows mode1024 screenTerminal 0 shortTexts screenTerminal_display screenTerminal_onScreen
    screenTerminal_margin trivial (by decide)

/-- **A screen that is cleared shows what is written next**, whatever was on it before. -/
theorem cleared_shows (g : VbeModeInfo) (t : Tty) (after : Bytes)
    (texts : List (List Item × Bytes)) (hdisplay : Display g t) (hx : 0 < xLimit g t.font)
    (hy : 0 < pageRows g t.font) (hbacks : Backs (xLimit g t.font) 0 (texts.flatMap Prod.fst))
    (hlen : ∀ text ∈ texts, (spellItems text.1).length < indexTurns) :
    ∃ t₁ t', terminalWrite g t (cstr clearText after) clearText.length =
        some (clearText.length, t₁) ∧ writeTexts g t₁ texts = some t' ∧
      ShowsEnd g t.font t' (written g t (clearedPaper t) texts) := by
  obtain ⟨t₁, hclear, htools, hpage⟩ := hdisplay.cleared hx hy after
  have hfont := hdisplay.sameFont htools
  have hcolumn : t₁.x = 0 := hpage.column.symm
  obtain ⟨t', hwrite, hshows⟩ := @OnPage.showsEnd g t₁ _ _ hpage texts
    (by rw [hfont, hcolumn]; exact hbacks) hlen
  have hstrokes : (fun text : List Item × Bytes => textStrokes t₁ text.1) =
      fun text => textStrokes t text.1 := by
    funext text
    unfold textStrokes
    rw [hdisplay.cursor_same htools,
      List.map_congr_left fun i _ => hdisplay.stroke_same htools i]
  have hpaper : written g t₁ (clearedPaper t) texts = written g t (clearedPaper t) texts := by
    unfold written
    rw [hfont, hstrokes]
  rw [hfont, clearedPaper_unrolled t hy, hpaper] at hshows
  exact ⟨t₁, t', hclear, hwrite, hshows⟩

/-- The same behind `"\\eCLS;"`. -/
theorem cleared_shows_short : ∃ t₁ t', terminalWrite mode1024 screenTerminal
      (cstr clearText fun _ => 0) clearText.length = some (clearText.length, t₁) ∧
    writeTexts mode1024 t₁ shortTexts = some t' ∧
      ShowsEnd mode1024 screenTerminal.font t'
        (written mode1024 screenTerminal (clearedPaper screenTerminal) shortTexts) :=
  cleared_shows mode1024 screenTerminal (fun _ => 0) shortTexts screenTerminal_display (by decide)
    (by decide) trivial (by decide)

end AmateurOs.Terminal
