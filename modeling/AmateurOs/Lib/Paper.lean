/-
# Paper and pages

A pen writes cells on paper, line by line (`Paper.stroke`).  On paper there is always another line;
a page has some rows, and moves them up when the pen goes down from the last one (`Paper.roll`).
The row that comes in is always the same, the margin.

`Shows` is the simulation between the two: the page is a window on the paper, whose last row is the
one with the pen once it has moved.  So a page shows the end of the paper (`page_shows`).
-/
import Mathlib.Logic.Function.Basic

namespace AmateurOs.Lib

universe u

/-! ## 1. The pen -/

/-- What a pen does: it draws a cell and goes on to the next, changes the cell that it is on, goes
down a line, to the first column, or a column back. -/
inductive Stroke (α : Type u)
  | put (a : α)
  | mark (f : α → α)
  | down
  | home
  | back

/-- **Cells in lines**, and the pen on one of them. -/
structure Paper (α : Type u) where
  cells : Nat → Nat → α
  line : Nat
  column : Nat

section

variable {α : Type u}

/-- The cell that the pen is on. -/
def Paper.cell (p : Paper α) : α := p.cells p.line p.column

/-- Another cell where the pen is. -/
def Paper.set (p : Paper α) (a : α) : Paper α :=
  { p with cells := Function.update p.cells p.line (Function.update (p.cells p.line) p.column a) }

/-- The pen one line down. -/
def Paper.down (p : Paper α) : Paper α := { p with line := p.line + 1 }

/-- The pen one row down on a page of `h` rows, which move up when there is none. -/
def Paper.roll (h : Nat) (margin : Nat → α) (p : Paper α) : Paper α :=
  if p.line + 1 < h then p.down
  else { p with cells := fun r => if r + 1 < h then p.cells (r + 1) else margin }

/-- **One stroke** in lines of `w` cells. -/
def Paper.stroke (feed : Paper α → Paper α) (w : Nat) (p : Paper α) : Stroke α → Paper α
  | .put a =>
    if p.column + 1 < w then { p.set a with column := p.column + 1 }
    else feed { p.set a with column := 0 }
  | .mark f => p.set (f p.cell)
  | .down => feed p
  | .home => { p with column := 0 }
  | .back => { p with column := p.column - 1 }

/-- The strokes of a text. -/
def Paper.strokes (feed : Paper α → Paper α) (w : Nat) (p : Paper α) (ss : List (Stroke α)) :
    Paper α := ss.foldl (Paper.stroke feed w) p

@[simp] theorem Paper.line_set (p : Paper α) (a : α) : (p.set a).line = p.line := rfl

@[simp] theorem Paper.column_set (p : Paper α) (a : α) : (p.set a).column = p.column := rfl

theorem Paper.set_apply (p : Paper α) (a : α) (l c : Nat) :
    (p.set a).cells l c = if l = p.line ∧ c = p.column then a else p.cells l c := by
  unfold set
  by_cases hl : l = p.line
  · subst hl
    simp only [Function.update_self, Function.update_apply, true_and]
  · simp only [Function.update_of_ne hl, if_neg fun h : l = p.line ∧ c = p.column => hl h.1]

/-- A cell that is not the last one of its line. -/
theorem Paper.stroke_put {feed : Paper α → Paper α} {w : Nat} {p : Paper α}
    (h : p.column + 1 < w) (a : α) :
    p.stroke feed w (.put a) = { p.set a with column := p.column + 1 } := if_pos h

theorem Paper.stroke_mark {feed : Paper α → Paper α} {w : Nat} {p : Paper α} (f : α → α) :
    p.stroke feed w (.mark f) = p.set (f p.cell) := rfl

theorem Paper.stroke_back {feed : Paper α → Paper α} {w : Nat} {p : Paper α} :
    p.stroke feed w .back = { p with column := p.column - 1 } := rfl

/-! ## 2. The window -/

/-- **The page is a window on the paper**, from the line `top` on. -/
structure Shows (h w : Nat) (margin : Nat → α) (page paper : Paper α) (top : Nat) : Prop where
  row : page.line < h
  column : page.column < w
  line : paper.line = top + page.line
  same : paper.column = page.column
  cells : ∀ r < h, ∀ c < w, page.cells r c = paper.cells (top + r) c
  below : ∀ l, top + h ≤ l → ∀ c < w, paper.cells l c = margin c
  last : top = 0 ∨ page.line + 1 = h

variable {h w : Nat} {margin : Nat → α} {page paper : Paper α} {top : Nat}

/-- The same cell is drawn on both. -/
theorem Shows.set (hs : Shows h w margin page paper top) (a : α) :
    Shows h w margin (page.set a) (paper.set a) top := by
  refine { hs with cells := fun r hr c hc => ?_, below := fun l hl c hc => ?_ }
  · rw [Paper.set_apply, Paper.set_apply, hs.line, hs.same, hs.cells r hr c hc]
    exact if_congr (by omega) rfl rfl
  · have hrow := hs.row
    have hline := hs.line
    rw [Paper.set_apply, if_neg (by omega)]
    exact hs.below l hl c hc

/-- The pen is moved in its line. -/
theorem Shows.move (hs : Shows h w margin page paper top) {c : Nat} (hc : c < w) :
    Shows h w margin { page with column := c } { paper with column := c } top :=
  { hs with column := hc, same := rfl }

/-- **A line down**: the window stays or moves with the pen. -/
theorem Shows.feed (hs : Shows h w margin page paper top) :
    ∃ top, Shows h w margin (page.roll h margin) paper.down top := by
  have hrow := hs.row
  have hline := hs.line
  unfold Paper.roll
  by_cases hroom : page.line + 1 < h
  · rw [if_pos hroom]
    refine ⟨top, { hs with row := hroom, line := ?_, last := Or.inl ?_ }⟩
    · show paper.line + 1 = top + (page.line + 1)
      omega
    · exact hs.last.resolve_right (Nat.ne_of_lt hroom)
  · rw [if_neg hroom]
    refine ⟨top + 1, { hs with
      line := ?_
      cells := fun r hr c hc => ?_
      below := fun l hl c hc => hs.below l (by omega) c hc
      last := Or.inr (by omega : page.line + 1 = h) }⟩
    · show paper.line + 1 = top + 1 + page.line
      omega
    · show (if r + 1 < h then page.cells (r + 1) else margin) c = paper.cells (top + 1 + r) c
      split
      · next hlt =>
        rw [hs.cells (r + 1) hlt c hc]
        congr 1
        omega
      · exact (hs.below _ (by omega) c hc).symm

/-- **One stroke** on both. -/
theorem Shows.stroke (hs : Shows h w margin page paper top) (s : Stroke α) :
    ∃ top, Shows h w margin (page.stroke (Paper.roll h margin) w s)
      (paper.stroke Paper.down w s) top := by
  have hsame := hs.same
  have hcolumn := hs.column
  cases s with
  | put a =>
    simp only [Paper.stroke, hsame]
    split
    · next hnext => exact ⟨top, (hs.set a).move hnext⟩
    · exact ((hs.set a).move (Nat.zero_lt_of_lt hcolumn)).feed
  | mark f =>
    have hcell : paper.cell = page.cell := by
      unfold Paper.cell
      rw [hs.line, hsame, hs.cells _ hs.row _ hcolumn]
    simp only [Paper.stroke, hcell]
    exact ⟨top, hs.set _⟩
  | down => exact hs.feed
  | home => exact ⟨top, hs.move (Nat.zero_lt_of_lt hcolumn)⟩
  | back =>
    simp only [Paper.stroke, hsame]
    exact ⟨top, hs.move (by omega)⟩

/-- The paper that a page begins: its rows, and the margin below them. -/
def Paper.unrolled (h : Nat) (margin : Nat → α) (page : Paper α) : Paper α :=
  { page with cells := fun l => if l < h then page.cells l else margin }

/-- **A page shows the end of the paper**: the line with the pen, and those before it. -/
theorem page_shows (ss : List (Stroke α)) (hrow : page.line < h) (hcolumn : page.column < w) :
    let paper := (page.unrolled h margin).strokes Paper.down w ss
    let page := page.strokes (Paper.roll h margin) w ss
    page.line = min paper.line (h - 1) ∧ page.column = paper.column ∧
      ∀ r < h, ∀ c < w, page.cells r c = paper.cells (paper.line + 1 - h + r) c := by
  have hrun : ∀ (ss : List (Stroke α)) {page paper : Paper α} {top : Nat},
      Shows h w margin page paper top →
        ∃ top, Shows h w margin (page.strokes (Paper.roll h margin) w ss)
          (paper.strokes Paper.down w ss) top := by
    intro ss
    induction ss with
    | nil => exact fun hs => ⟨_, hs⟩
    | cons s ss ih =>
      intro page paper top hs
      obtain ⟨top', hs'⟩ := hs.stroke s
      exact ih hs'
  have hstart : Shows h w margin page (page.unrolled h margin) 0 :=
    ⟨hrow, hcolumn, (Nat.zero_add _).symm, rfl, fun r hr c _ => by
      show _ = (if 0 + r < h then page.cells (0 + r) else margin) c
      rw [Nat.zero_add, if_pos hr], fun l hl c _ => by
      show (if l < h then page.cells l else margin) c = margin c
      rw [if_neg (by omega)], Or.inl rfl⟩
  obtain ⟨top, hs⟩ := hrun ss hstart
  have hline := hs.line
  have hlast := hs.last
  have hin := hs.row
  refine ⟨by omega, hs.same.symm, fun r hr c hc => ?_⟩
  rw [hs.cells r hr c hc]
  congr 1
  omega

end

end AmateurOs.Lib
