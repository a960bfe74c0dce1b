/-
# The text cursor

What `terminal_write` does with a text of printable characters, line ends and backspaces
(`Item`), one after the other: `X` and `Y` stay on the screen as long as no backspace is met in
column 0, and the glyphs are drawn inside the frame buffer.

The backspace is `X--` on a `uint32_t`.  In column 0 it leaves the column 2^32 - 1, and the next
glyph lies in front of the frame buffer or behind it.  The column comes from the text alone
(`Backs`), so the condition is one on the text and the column at its start.
-/
import Mathlib.Tactic.Ring
import AmateurOs.Lib.Run
import AmateurOs.Terminal.Bounds

namespace AmateurOs.Terminal

open AmateurOs.Lib AmateurOs.Fs

/-! ## 1. Texts -/

/-- A printable character, a line end, or the sequence `"\eBS;"`. -/
inductive Item
  | glyph (c : UInt8) (hc : 0x20 ≤ c ∧ c ≤ 0x7e)
  | carriageReturn
  | lineFeed
  | backspace

/-- The characters of an item. -/
def Item.chars : Item → List UInt8
  | .glyph c _ => [c]
  | .carriageReturn => [char '\r']
  | .lineFeed => [char '\n']
  | .backspace => 0x1b :: text "BS;"

/-- The text of items. -/
def spellItems (items : List Item) : List UInt8 := items.flatMap Item.chars

/-- What an item does to the terminal. -/
def Item.apply (g : VbeModeInfo) (f : Font) (t : Tty) : Item → Tty
  | .glyph c _ => printChar g f t c
  | .carriageReturn => { t with x := 0 }
  | .lineFeed => Terminal.lineFeed g f t
  | .backspace => { t with x := sub32 t.x 1 }

/-- **No backspace is met in column 0**, from column `x` on: a printable character moves one to
the right, from the last column to the first; a backspace moves one to the left. -/
def Backs (limit : Nat) : Nat → List Item → Prop
  | _, [] => True
  | x, .glyph _ _ :: items => Backs limit (if x + 1 < limit then x + 1 else 0) items
  | _, .carriageReturn :: items => Backs limit 0 items
  | x, .lineFeed :: items => Backs limit x items
  | x, .backspace :: items => 0 < x ∧ Backs limit (x - 1) items

/-! ## 2. The property -/

/-- The cursor is on the screen, in front of its last row. -/
structure OnScreen (g : VbeModeInfo) (f : Font) (t : Tty) : Prop where
  x : t.x < xLimit g f
  y : t.y < yLimit g f - 1

/-- The bytes of the frame buffer. -/
def InFramebuffer (g : VbeModeInfo) (a : Nat) : Prop :=
  ∃ off < g.xResolution.toNat * g.yResolution.toNat * g.bytesPerPixel,
    u32 a = u32 (g.physicalBasePointer.toNat + off)

/-- A glyph is drawn inside the frame buffer. -/
def DrawsInside (g : VbeModeInfo) (f : Font) (t : Tty) (c : UInt8) : Prop :=
  ∀ a, ¬ InFramebuffer g a → (drawChar g f t c).mem a = t.mem a

/-- One turn of the loop of `terminal_write`. -/
def Turn (g : VbeModeInfo) (f : Font) (str : Bytes) (len : Nat) (r : Nat × Tty) (_ : Unit)
    (r' : Nat × Tty) : Prop :=
  r.1 < len ∧ str r.1 ≠ 0 ∧ ∃ j t', writeAt g f str r.1 r.2 = some (j, t') ∧ r' = (j + 1, t')

/-- The indices and terminals that the loop goes through. -/
def Turns (g : VbeModeInfo) (t : Tty) (str : Bytes) (len : Nat) (r : Nat × Tty) : Prop :=
  Reach (Turn g t.font str len) (fun _ _ => True) (0, t) r

/-- **The cursor stays on the screen** after every character, and every glyph inside the frame
buffer. -/
def StaysOnScreen (g : VbeModeInfo) (t : Tty) (str : Bytes) (len : Nat) : Prop :=
  ∀ r, Turns g t str len r → OnScreen g t.font r.2 ∧
    (r.1 < len → 0x20 ≤ str r.1 ∧ str r.1 ≤ 0x7e → DrawsInside g t.font r.2 (str r.1))

/-! ## 3. Glyphs -/

section

variable {g : VbeModeInfo} {f : Font}

/-- The bytes that a pixel takes. -/
def pixelBytes (bytesPerPixel : Nat) : Nat := if bytesPerPixel > 2 then 4 else bytesPerPixel

theorem putPixel_out {bytesPerPixel framebuffer color a : Nat} {m : Bytes}
    (h : ∀ j < pixelBytes bytesPerPixel, a ≠ u32 framebuffer + j) :
    putPixel bytesPerPixel m framebuffer color a = m a := by
  unfold pixelBytes at h
  unfold putPixel
  have hout : ∀ n, (∀ j < n, a ≠ u32 framebuffer + j) →
      a < u32 framebuffer ∨ u32 framebuffer + n ≤ a := by
    intro n hn
    by_contra hin
    exact hn (a - u32 framebuffer) (by omega) (by omega)
  by_cases hbig : bytesPerPixel > 2
  · rw [if_pos hbig] at h ⊢
    exact blit_out (hout 4 h)
  rw [if_neg hbig] at h ⊢
  by_cases htwo : bytesPerPixel = 2
  · subst htwo
    exact blit_out (hout 2 h)
  rw [if_neg htwo]
  by_cases hone : bytesPerPixel = 1
  · subst hone
    exact blit_out (hout 1 h)
  · rw [if_neg hone]

/-- **A line of pixels** changes no byte beside them. -/
theorem drawLine_out {bytesPerPixel fg bg a : Nat} : ∀ (bits : List Bool) (framebuffer : Nat)
    (m : Bytes), (∀ k < bits.length, ∀ j < pixelBytes bytesPerPixel,
      a ≠ u32 (framebuffer + k * bytesPerPixel) + j) →
    drawLine (putPixel bytesPerPixel) bytesPerPixel fg bg bits framebuffer m a = m a := by
  intro bits
  induction bits with
  | nil => exact fun _ _ _ => rfl
  | cons bit bits ih =>
    intro framebuffer m h
    unfold drawLine
    rw [ih _ _ fun k hk j hj => ?_, putPixel_out fun j hj => ?_]
    · have hfirst := h 0 (Nat.succ_pos _) j hj
      rwa [Nat.zero_mul, Nat.add_zero] at hfirst
    · have hnext := h (k + 1) (Nat.succ_lt_succ hk) j hj
      rwa [Nat.succ_mul, Nat.add_comm (k * bytesPerPixel), ← Nat.add_assoc] at hnext

theorem lineBits_length (fontChar : Bytes) (bytesPerCharLine fontW : Nat) :
    (lineBits fontChar bytesPerCharLine fontW).length ≤ fontW := by
  unfold lineBits
  exact List.length_take_le _ _

/-- A pixel of a cell on the screen lies in the frame buffer. -/
theorem pixel_inFramebuffer {t : Tty} (h : OnScreen g f t) {line k j : Nat}
    (hline : line < f.height) (hk : k < f.width) (hj : j < pixelBytes g.bytesPerPixel) :
    InFramebuffer g (u32 (cellAddress g f t + line * (g.xResolution.toNat * g.bytesPerPixel) +
      k * g.bytesPerPixel) + j) := by
  have hcolumn : t.x * f.width + k + 1 ≤ g.xResolution.toNat := by
    calc t.x * f.width + k + 1 ≤ (t.x + 1) * f.width := by
          rw [Nat.succ_mul]
          omega
      _ ≤ xLimit g f * f.width := Nat.mul_le_mul_right _ h.x
      _ ≤ g.xResolution.toNat := Nat.div_mul_le_self _ _
  have hrow : t.y * f.height + line + 2 ≤ g.yResolution.toNat := by
    have hy := h.y
    calc t.y * f.height + line + 2 ≤ (t.y + 2) * f.height := by
          rw [Nat.add_mul]
          omega
      _ ≤ yLimit g f * f.height := Nat.mul_le_mul_right _ (by omega)
      _ ≤ g.yResolution.toNat := Nat.div_mul_le_self _ _
  unfold InFramebuffer cellAddress
  generalize g.bytesPerPixel = bpp at hj ⊢
  generalize g.xResolution.toNat = width at hcolumn ⊢
  generalize g.yResolution.toNat = height at hrow ⊢
  have hpixel : 1 ≤ bpp ∧ j < bpp + 1 := by
    unfold pixelBytes at hj
    split at hj <;> omega
  have hlast : j < bpp + width * bpp := by
    have hpos : 1 * 1 ≤ width * bpp := Nat.mul_le_mul (by omega) hpixel.1
    omega
  have hoff : t.y * f.height * width * bpp + t.x * f.width * bpp + line * (width * bpp) +
      k * bpp + j < width * height * bpp := by
    calc t.y * f.height * width * bpp + t.x * f.width * bpp + line * (width * bpp) + k * bpp + j
        = (t.y * f.height + line) * (width * bpp) + (t.x * f.width + k) * bpp + j := by ring
      _ < (t.y * f.height + line) * (width * bpp) + (t.x * f.width + k) * bpp +
          (bpp + width * bpp) := Nat.add_lt_add_left hlast _
      _ = (t.y * f.height + line + 1) * (width * bpp) + (t.x * f.width + k + 1) * bpp := by ring
      _ ≤ (t.y * f.height + line + 1) * (width * bpp) + width * bpp :=
          Nat.add_le_add_left (Nat.mul_le_mul_right _ hcolumn) _
      _ = (t.y * f.height + line + 2) * (width * bpp) := by ring
      _ ≤ height * (width * bpp) := Nat.mul_le_mul_right _ hrow
      _ = width * height * bpp := by ring
  refine ⟨_, hoff, ?_⟩
  unfold u32
  omega

/-- **A glyph in a cell on the screen** is drawn inside the frame buffer. -/
theorem OnScreen.drawsInside {t : Tty} (h : OnScreen g f t) (c : UInt8) :
    DrawsInside g f t c := by
  intro a ha
  unfold drawChar
  simp only
  generalize u32 (fontAddress + sub32 (c.toNat * f.charSize) f.charSize) = fontChar
  have hlines : ∀ (lines : List Nat) (m : Bytes), (∀ line ∈ lines, line < f.height) →
      lines.foldl (fun m line =>
        drawLine (putPixel g.bytesPerPixel) g.bytesPerPixel t.userFg t.userBg
          (lineBits (slice m (fontChar + line * f.bytesPerCharLine)) f.bytesPerCharLine f.width)
          (cellAddress g f t + line * (g.xResolution.toNat * g.bytesPerPixel)) m) m a = m a := by
    intro lines
    induction lines with
    | nil => exact fun _ _ => rfl
    | cons line lines ih =>
      intro m hlt
      rw [List.foldl_cons, ih _ fun l hl => hlt l (List.mem_cons_of_mem _ hl)]
      refine drawLine_out _ _ _ fun k hk j hj heq => ha ?_
      rw [heq]
      exact pixel_inFramebuffer h (hlt line List.mem_cons_self)
        (Nat.lt_of_lt_of_le hk (lineBits_length _ _ _)) hj
  exact hlines _ t.mem fun line hline => List.mem_range.mp hline

end

/-! ## 4. Items -/

section

variable {g : VbeModeInfo} {f : Font} {t : Tty}

theorem drawChar_x (c : UInt8) : (drawChar g f t c).x = t.x := rfl

theorem xLimit_lt : xLimit g f < 65536 :=
  Nat.lt_of_le_of_lt (Nat.div_le_self _ _) g.xResolution.toNat_lt

theorem yLimit_lt : yLimit g f < 65536 :=
  Nat.lt_of_le_of_lt (Nat.div_le_self _ _) g.yResolution.toNat_lt

/-- The column after a line feed, and the row. -/
theorem lineFeed_onScreen (hy : t.y < yLimit g f - 1) :
    (lineFeed g f t).x = t.x ∧ (lineFeed g f t).y < yLimit g f - 1 := by
  have hlimit := @yLimit_lt g f
  have hnext : u32 (t.y + 1) = t.y + 1 := u32_eq (by omega)
  have hlast : sub32 (yLimit g f) 1 = yLimit g f - 1 := sub32_eq (by omega) (by omega)
  have hback : sub32 (t.y + 1) 1 = t.y + 1 - 1 := sub32_eq (by omega) (by omega)
  unfold lineFeed
  simp only [hnext, hlast, hback]
  split
  · exact ⟨rfl, by simp only; omega⟩
  · exact ⟨rfl, by simp only; omega⟩

/-- **One item** keeps the cursor on the screen, unless it is a backspace in column 0. -/
theorem OnScreen.item (h : OnScreen g f t) {item : Item} {items : List Item}
    (hbacks : Backs (xLimit g f) t.x (item :: items)) :
    OnScreen g f (item.apply g f t) ∧ Backs (xLimit g f) (item.apply g f t).x items := by
  obtain ⟨hx, hy⟩ := h
  have hlimit := @xLimit_lt g f
  cases item with
  | glyph c hc =>
    have hnext : u32 (t.x + 1) = t.x + 1 := u32_eq (by omega)
    unfold Item.apply printChar
    simp only [drawChar_x, hnext]
    unfold Backs at hbacks
    by_cases hlt : t.x + 1 < xLimit g f
    · rw [if_pos hlt] at hbacks ⊢
      exact ⟨⟨hlt, hy⟩, hbacks⟩
    · rw [if_neg hlt] at hbacks ⊢
      have hfeed := @lineFeed_onScreen g f { drawChar g f t c with x := 0 } hy
      rw [hfeed.1]
      exact ⟨⟨hfeed.1.symm ▸ Nat.zero_lt_of_lt hx, hfeed.2⟩, hbacks⟩
  | carriageReturn => exact ⟨⟨Nat.zero_lt_of_lt hx, hy⟩, hbacks⟩
  | lineFeed =>
    have hfeed := lineFeed_onScreen hy
    unfold Item.apply
    rw [hfeed.1]
    exact ⟨⟨hfeed.1.symm ▸ hx, hfeed.2⟩, hbacks⟩
  | backspace =>
    obtain ⟨hpos, hrest⟩ := hbacks
    have hback : sub32 t.x 1 = t.x - 1 := sub32_eq (by omega) hpos
    unfold Item.apply
    simp only [hback]
    exact ⟨⟨by simp only; omega, hy⟩, hrest⟩

/-- A backspace in column 0 leaves the screen. -/
theorem backspace_leaves (hx : t.x = 0) : ¬ OnScreen g f (Item.backspace.apply g f t) := by
  intro h
  have hlimit := @xLimit_lt g f
  have hcolumn := h.x
  unfold Item.apply at hcolumn
  simp only [hx] at hcolumn
  have hwrap : sub32 0 1 = 4294967295 := by decide
  omega

/-- **The cursor stays on the screen over a row of items** exactly when no backspace is met in
column 0. -/
theorem onScreen_items : ∀ {items : List Item} {t : Tty}, OnScreen g f t →
    ((∀ pre, pre <+: items → OnScreen g f (pre.foldl (Item.apply g f) t)) ↔
      Backs (xLimit g f) t.x items) := by
  intro items
  induction items with
  | nil =>
    refine fun h => ⟨fun _ => trivial, fun _ pre hpre => ?_⟩
    rw [List.prefix_nil.mp hpre]
    exact h
  | cons item items ih =>
    intro t h
    constructor
    · intro hall
      have hfirst : OnScreen g f (item.apply g f t) :=
        hall [item] (List.cons_prefix_cons.mpr ⟨rfl, List.nil_prefix⟩)
      have hrest := (ih hfirst).mp fun pre hpre =>
        hall (item :: pre) (List.cons_prefix_cons.mpr ⟨rfl, hpre⟩)
      have hlimit := @xLimit_lt g f
      have hx := h.x
      cases item with
      | glyph c hc =>
        have hnext : u32 (t.x + 1) = t.x + 1 := u32_eq (by omega)
        unfold Item.apply printChar at hrest
        simp only [drawChar_x, hnext] at hrest
        unfold Backs
        by_cases hlt : t.x + 1 < xLimit g f
        · rw [if_pos hlt] at hrest ⊢
          exact hrest
        · rw [if_neg hlt] at hrest ⊢
          rwa [(lineFeed_onScreen (t := { drawChar g f t c with x := 0 }) h.y).1] at hrest
      | carriageReturn => exact hrest
      | lineFeed =>
        unfold Item.apply at hrest
        rwa [(lineFeed_onScreen h.y).1] at hrest
      | backspace =>
        have hpos : 0 < t.x := by
          by_contra hzero
          exact backspace_leaves (Nat.eq_zero_of_not_pos hzero) hfirst
        have hback : sub32 t.x 1 = t.x - 1 := sub32_eq (by omega) hpos
        unfold Item.apply at hrest
        simp only [hback] at hrest
        exact ⟨hpos, hrest⟩
    · intro hbacks pre hpre
      obtain ⟨hfirst, hrest⟩ := h.item hbacks
      rcases List.prefix_cons_iff.mp hpre with rfl | ⟨pre', rfl, hpre'⟩
      · exact h
      · exact (ih hfirst).mpr hrest pre' hpre'

end

/-! ## 5. Runs -/

section

variable {g : VbeModeInfo} {f : Font} {t : Tty}

theorem spellItems_append (items items' : List Item) :
    spellItems (items ++ items') = spellItems items ++ spellItems items' := List.flatMap_append

theorem spellItems_cons (item : Item) (items : List Item) :
    spellItems (item :: items) = item.chars ++ spellItems items := List.flatMap_cons

theorem Item.chars_pos (item : Item) : 0 < item.chars.length := by
  cases item with
  | glyph | carriageReturn | lineFeed => exact Nat.one_pos
  | backspace => exact Nat.succ_pos _

/-- **An item is one turn** of the loop. -/
theorem writeAt_item {str : Bytes} {i : Nat} (item : Item) (h : Spells str i item.chars) :
    str i ≠ 0 ∧ writeAt g f str i t = some (i + item.chars.length - 1, item.apply g f t) := by
  unfold writeAt
  cases item with
  | glyph c hc =>
    have hat : str i = c := (spells_cons.mp h).1
    have hcodes : ∀ d : UInt8, 0x20 ≤ d → d ≠ 0 ∧ d ≠ 0x1b ∧ d ≠ char '\n' ∧ d ≠ char '\r' := by
      intro d hd
      refine ⟨?_, ?_, ?_, ?_⟩ <;> rintro rfl <;> exact absurd hd (by decide)
    obtain ⟨hnul, hesc, hfeed, hreturn⟩ := hcodes c hc.1
    rw [hat, if_neg hesc, if_neg hfeed, if_neg hreturn]
    exact ⟨hnul, rfl⟩
  | carriageReturn =>
    have hat : str i = char '\r' := (spells_cons.mp h).1
    rw [hat, if_neg (by decide), if_neg (by decide), if_pos rfl]
    exact ⟨by decide, rfl⟩
  | lineFeed =>
    have hat : str i = char '\n' := (spells_cons.mp h).1
    rw [hat, if_neg (by decide), if_pos rfl]
    exact ⟨by decide, rfl⟩
  | backspace =>
    obtain ⟨hat, hspell⟩ := spells_cons.mp h
    have hmem : text "BS;" ∈ sequences := by decide +kernel
    have hlength : (text "BS;").length = 3 := by decide
    have hother : text "BS;" ≠ text "CLS;" ∧ text "BS;" ≠ text "FG" ∧
        text "BS;" ≠ text "CSRON;" ∧ text "BS;" ≠ text "CSROFF;" := by decide
    have hfound := (compareAll_some sequences_length sequences_nonzero sequences_apart
      (Nat.le_add_right (i + 1) 3) hmem hspell (by rw [hlength])).1
    rw [hat, if_pos rfl, escape_found (Spells.not_X hspell hmem), hfound]
    simp only [applySequence, if_neg hother.1, if_neg hother.2.1, if_neg hother.2.2.1,
      if_neg hother.2.2.2]
    exact ⟨by decide, rfl⟩

/-- **The loop goes through the items one by one.** -/
theorem turns_iff {items : List Item} {str : Bytes} (h : Spells str 0 (spellItems items))
    {r : Nat × Tty} : Turns g t str (spellItems items).length r ↔
      ∃ pre, pre <+: items ∧
        r = ((spellItems pre).length, pre.foldl (Item.apply g t.font) t) := by
  have hitem : ∀ {pre rest : List Item} {item : Item}, items = pre ++ item :: rest →
      Spells str (spellItems pre).length item.chars ∧
        (spellItems pre).length < (spellItems items).length := by
    rintro pre rest item rfl
    rw [spellItems_append, spellItems_cons] at h ⊢
    have hhere := (spells_append.mp (spells_append.mp h).2).1
    rw [Nat.zero_add] at hhere
    have hpos := item.chars_pos
    rw [List.length_append, List.length_append]
    exact ⟨hhere, by omega⟩
  have hnext : ∀ (pre : List Item) (item : Item), (spellItems (pre ++ [item])).length =
      (spellItems pre).length + item.chars.length - 1 + 1 := by
    intro pre item
    have hpos := item.chars_pos
    rw [spellItems_append, spellItems_cons, List.length_append, List.length_append]
    show _ + (_ + 0) = _
    omega
  constructor
  · intro hrun
    refine @Reach.invariant _ _ _ _ _ (fun r => ∃ pre, pre <+: items ∧
      r = ((spellItems pre).length, pre.foldl (Item.apply g t.font) t))
      ⟨[], List.nil_prefix, rfl⟩ ?_ _ hrun
    rintro s - s' ⟨pre, ⟨rest, hrest⟩, rfl⟩ - ⟨hlt, -, j, t', hwrite, rfl⟩
    cases rest with
    | nil =>
      rw [List.append_nil] at hrest
      rw [hrest] at hlt
      exact absurd hlt (Nat.lt_irrefl _)
    | cons item rest =>
      have hdone := (@writeAt_item g t.font (pre.foldl (Item.apply g t.font) t) str _ item
        (hitem hrest.symm).1).2
      obtain ⟨rfl, rfl⟩ := Prod.mk.inj (Option.some.inj (hwrite.symm.trans hdone))
      refine ⟨pre ++ [item], ⟨rest, by rw [← hrest, List.append_assoc]; rfl⟩, ?_⟩
      rw [hnext, List.foldl_append]
      rfl
  · rintro ⟨pre, hpre, rfl⟩
    induction pre using List.reverseRecOn with
    | nil => exact .refl
    | append_singleton pre item ih =>
      obtain ⟨rest, hrest⟩ := hpre
      have hitems : items = pre ++ item :: rest := by
        rw [← hrest, List.append_assoc]
        rfl
      obtain ⟨hhere, hlt⟩ := hitem hitems
      obtain ⟨hnul, hdone⟩ := @writeAt_item g t.font (pre.foldl (Item.apply g t.font) t) str _ item
        hhere
      refine .tail (a := ()) (ih ⟨item :: rest, hitems.symm⟩) trivial ⟨hlt, hnul, _, _, hdone, ?_⟩
      rw [hnext, List.foldl_append]
      rfl

end

/-- What `terminal_write` returns is the end of its turns, with the cursor drawn. -/
theorem terminalWrite_turns {g : VbeModeInfo} {t t' : Tty} {str : Bytes} {len n : Nat}
    (h : terminalWrite g t str len = some (n, t')) :
    ∃ t₁, Turns g t str len (n, t₁) ∧ t' = drawCursor g t₁.showCursor t₁ := by
  have hloop : ∀ {fuel i : Nat} {s : Tty} {r : Nat × Tty}, Turns g t str len (i, s) →
      writeLoop g t.font str len fuel i s = some r → Turns g t str len r := by
    intro fuel
    induction fuel with
    | zero => exact fun _ hret => absurd hret (by simp [writeLoop])
    | succ fuel ih =>
      intro i s r hturns hret
      unfold writeLoop at hret
      by_cases hgo : i < len ∧ str i ≠ 0
      · rw [if_pos hgo] at hret
        obtain ⟨⟨j, s'⟩, hwrite, hret⟩ := Option.bind_eq_some_iff.mp hret
        exact ih (.tail (a := ()) hturns trivial ⟨hgo.1, hgo.2, j, s', hwrite, rfl⟩) hret
      · rw [if_neg hgo] at hret
        obtain rfl := Option.some.inj hret
        exact hturns
  obtain ⟨⟨i, t₁⟩, hret, hdone⟩ := Option.bind_eq_some_iff.mp h
  obtain ⟨rfl, rfl⟩ := Prod.mk.inj (Option.some.inj hdone)
  exact ⟨t₁, hloop .refl hret, rfl⟩

/-! ## 6. The theorem -/

/-- **The cursor stays on the screen exactly when no backspace is met in column 0.** -/
theorem staysOnScreen_iff (g : VbeModeInfo) (t : Tty) (items : List Item) (after : Bytes)
    (h : OnScreen g t.font t) :
    StaysOnScreen g t (cstr (spellItems items) after) (spellItems items).length ↔
      Backs (xLimit g t.font) t.x items := by
  have hspell : Spells (cstr (spellItems items) after) 0 (spellItems items) := fun k hk => by
    rw [Nat.zero_add, cstr_lt hk]
  rw [← onScreen_items h]
  constructor
  · exact fun hstays pre hpre => (hstays _ ((turns_iff hspell).mpr ⟨pre, hpre, rfl⟩)).1
  · intro hall r hr
    obtain ⟨pre, hpre, rfl⟩ := (turns_iff hspell).mp hr
    exact ⟨hall pre hpre, fun _ _ => (hall pre hpre).drawsInside _⟩

/-- The terminal in front of a font of 8 by 16 pixels. -/
def screenTerminal : Tty :=
  { freshTerminal with
    mem := fun a => if a = fontAddress then 8 else if a = fontAddress + 1 then 16 else 0 }

theorem screenTerminal_onScreen : OnScreen mode1024 screenTerminal.font screenTerminal :=
  ⟨by decide, by decide⟩

/-- `a`, and a backspace. -/
theorem staysOnScreen_back : StaysOnScreen mode1024 screenTerminal
    (cstr (spellItems [.glyph 97 (by decide), .backspace]) fun _ => 0)
    (spellItems [.glyph 97 (by decide), .backspace]).length :=
  (staysOnScreen_iff mode1024 screenTerminal [.glyph 97 (by decide), .backspace] (fun _ => 0)
    screenTerminal_onScreen).mpr ⟨by decide, trivial⟩

/-- **A backspace in the first column** leaves the screen. -/
theorem cursor_leaves : ¬ ∀ (g : VbeModeInfo) (t : Tty) (items : List Item) (after : Bytes),
    OnScreen g t.font t →
      StaysOnScreen g t (cstr (spellItems items) after) (spellItems items).length := by
  intro hall
  have hspell : Spells (cstr (spellItems [.backspace]) fun _ => 0) 0 (spellItems [.backspace]) :=
    fun k hk => by rw [Nat.zero_add, cstr_lt hk]
  have hstays := hall mode1024 screenTerminal [.backspace] (fun _ => 0) screenTerminal_onScreen
  have hafter := (hstays _ ((turns_iff hspell).mpr ⟨[.backspace], List.prefix_rfl, rfl⟩)).1
  exact backspace_leaves rfl hafter

end AmateurOs.Terminal
