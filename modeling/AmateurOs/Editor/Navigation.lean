/-
# The cursor keys

While a file is only looked at, `file_offset` should be the place of row `cursor_y` and column
`cursor_x` in the text.  Three handlers break it:

* Right arrow tests the column against `current_line_length`, which counts the line feed too.  At
  the end of a line it goes one further, to the line below or out of the file;
* Up arrow, on the way to an empty first line, steps back over the first byte and looks for a line
  feed in front of the buffer;
* Down arrow, on the way to an empty last line, measures the line by the bytes behind the buffer.

**In every run that keeps clear of these three the cursor stays where the text says**, and every
handler returns (`navigation_consistent`).
-/
import AmateurOs.Editor.Cursor

namespace AmateurOs.Editor

open AmateurOs.Lib

/-! ## 1. Keys -/

inductive Navigation where
  | left
  | right
  | up
  | down
  | home
  | toEnd
  deriving DecidableEq

/-- What `get_key` delivers. -/
def Navigation.code : Navigation → UInt8
  | .left => leftArrow
  | .right => rightArrow
  | .up => upArrow
  | .down => downArrow
  | .home => homeKey
  | .toEnd => endKey


/-! ## 2. To the line above and to the line below -/

section

variable {s : TextEditor} {u v w rest : List UInt8}

/-- Back to the line feed behind the line above. -/
theorem loop_toNewline (h : Stands s ⟨u ++ newline :: v, w⟩) (hu : newline ∉ u) {fuel : Nat}
    (hfuel : u.length ≤ fuel) :
    loop (fun s => s.here ≠ newline) (fun s => s.back 1) fuel (s.back 1)
      = some (s.back (u.length + 1)) := by
  refine @loop_steps _ _ _ (fun k => s.back (k + 1)) u.length fuel (fun k hk => ⟨?_, ?_⟩) ?_ hfuel
  · have hb : u[k]? = some u[k] := List.getElem?_eq_getElem hk
    have hhere := @Stands.behind _ w (u ++ newline :: v) k u[k] h
      (by rw [List.getElem?_append_left hk, hb])
    simpa [hhere] using ne_newline_of_getElem hu hb
  · exact back_back s (k + 1) 1
  · have hhere := @Stands.behind _ w (u ++ newline :: v) u.length newline h (by simp)
    simpa using hhere

/-- Forward to the line feed at the end of this line. -/
theorem loop_fromNewline (h : Stands s ⟨w, u ++ newline :: v⟩) (hu : newline ∉ u) {fuel : Nat}
    (hfuel : u.length ≤ fuel) :
    loop (fun s => s.here ≠ newline) (fun s => s.forward 1) fuel s
      = some (s.forward u.length) := by
  have hsteps := @loop_steps _ (fun s => s.here ≠ newline) (fun s => s.forward 1)
    (fun k => s.forward k) u.length fuel (fun k hk => ⟨?_, ?_⟩) ?_ hfuel
  · rwa [h.forward_zero] at hsteps
  · have hb : u[k]? = some u[k] := List.getElem?_eq_getElem hk
    have hhere := @Stands.ahead _ (u ++ newline :: v) w k u[k] h
      (by rw [List.getElem?_append_left hk, hb])
    simpa [hhere] using ne_newline_of_getElem hu hb
  · exact forward_forward s k 1
  · have hhere := @Stands.ahead _ (u ++ newline :: v) w u.length newline h (by simp)
    simpa using hhere

/-- **From the end of a line to its start**, with its length and its line feed counted. -/
theorem loop_lineStart (h : Stands s ⟨w ++ rest, v⟩) (hw : newline ∉ w) (hrest : LineEnd rest)
    (hne : w ≠ [] ∨ rest ≠ []) {fuel : Nat} (hfuel : w.length ≤ fuel) :
    ∃ s', loop (fun s => s.here ≠ newline ∧ s.fileOffset ≠ 0) (fun s => (s.back 1).longer) fuel
        ((s.back 1).longer) = some s' ∧
      s'.lineStart = (s.back w.length).counted (w.length + 1) := by
  -- The state after `k` turns.
  have hinner : ∀ k < w.length, (s.back (k + 1)).here ≠ newline := by
    intro k hk
    have hb : w[k]? = some w[k] := List.getElem?_eq_getElem hk
    rw [@Stands.behind _ v (w ++ rest) k w[k] h (by rw [List.getElem?_append_left hk, hb])]
    exact ne_newline_of_getElem hw hb
  have hoffset : ∀ k ≤ w.length + rest.length,
      (s.back k).fileOffset = w.length + rest.length - k := by
    intro k hk
    rw [h.offset_back (by rwa [List.length_append]), List.length_append]
  have hbody : ∀ k, ((((s.back (k + 1)).counted (k + 1)).back 1).longer)
      = (s.back (k + 1 + 1)).counted (k + 1 + 1) := by
    intro k
    rw [back_counted, longer_counted, back_back]
  have hstart : (s.back 1).longer = (s.back (0 + 1)).counted (0 + 1) := rfl
  rw [hstart]
  obtain rfl | ⟨rest, rfl⟩ := hrest
  · -- The first line: the search ends at the first byte of the file.
    have hpos : 0 < w.length := List.length_pos_of_ne_nil (hne.resolve_right (by simp))
    have hlast : ((s.back (w.length - 1 + 1)).counted (w.length - 1 + 1)).fileOffset = 0 := by
      rw [fileOffset_counted, hoffset _ (by omega)]
      simp only [List.length_nil]
      omega
    have hmiss : ((s.back (w.length - 1 + 1)).counted (w.length - 1 + 1)).here ≠ newline :=
      hinner (w.length - 1) (by omega)
    refine ⟨_, @loop_steps _ _ _ (fun k => (s.back (k + 1)).counted (k + 1)) (w.length - 1) fuel
      (fun k hk => ⟨decide_eq_true ⟨hinner k (by omega), ?_⟩, hbody k⟩)
      (decide_eq_false fun h => h.2 hlast) (by omega), ?_⟩
    · rw [fileOffset_counted, hoffset _ (by omega)]
      omega
    · rw [Nat.sub_add_cancel hpos] at hlast hmiss ⊢
      rw [TextEditor.lineStart, if_neg hmiss, if_pos hlast, longer_counted]
  · -- Any other line: the search ends at the line feed in front of it.
    have hstop : ((s.back (w.length + 1)).counted (w.length + 1)).here = newline :=
      @Stands.behind _ v (w ++ newline :: rest) w.length newline h (by simp)
    refine ⟨_, @loop_steps _ _ _ (fun k => (s.back (k + 1)).counted (k + 1)) w.length fuel
      (fun k hk => ⟨decide_eq_true ⟨hinner k hk, ?_⟩, hbody k⟩)
      (decide_eq_false fun h => h.1 hstop) hfuel, ?_⟩
    · rw [fileOffset_counted, hoffset _ (by simp only [List.length_cons]; omega), List.length_cons]
      omega
    · rw [TextEditor.lineStart, if_pos hstop, forward_counted, back_forward s (by omega),
        Nat.add_sub_cancel]

/-- Where the search for the end of the line `w` stops: on its line feed, or on the last byte of
the file. -/
def lineEnd (w rest : List UInt8) : Nat := if rest = [] then w.length - 1 else w.length

theorem lineEnd_le (w rest : List UInt8) : lineEnd w rest ≤ w.length := by
  unfold lineEnd
  split
  · exact Nat.sub_le _ _
  · exact Nat.le_refl _

/-- **From the start of a line to its end.**  Behind an empty last line comes the byte behind the
buffer. -/
theorem loop_lineEnd (h : Stands s ⟨v, w ++ rest⟩) (hw : newline ∉ w) (hrest : LineEnd rest)
    (hbehind : w = [] → rest = [] → s.here = newline ∨ s.here = 0)
    (hcount : s.currentLineLength = 0) {fuel : Nat}
    (hfuel : w.length ≤ fuel) :
    loop (fun s => (s.here ≠ newline ∧ s.here ≠ 0) ∧
      s.fileOffset ≠ sub32 s.fileLengthBytes 1) (fun s => (s.forward 1).longer) fuel s
        = some ((s.forward (lineEnd w rest)).counted (lineEnd w rest)) := by
  have hinner : ∀ k < w.length, (s.forward k).here ≠ newline ∧ (s.forward k).here ≠ 0 := by
    intro k hk
    have hb : w[k]? = some w[k] := List.getElem?_eq_getElem hk
    rw [@Stands.ahead _ (w ++ rest) v k w[k] h (by rw [List.getElem?_append_left hk, hb])]
    refine ⟨ne_newline_of_getElem hw hb, h.nonzero _ ?_⟩
    exact List.mem_append_right _ (List.mem_append_left _ (List.getElem_mem hk))
  obtain ⟨-, -, hlength, hfits⟩ := h.numbers
  have hoffset : ∀ k ≤ w.length + rest.length, (s.forward k).fileOffset = v.length + k := by
    intro k hk
    exact h.offset_forward (by rwa [List.length_append])
  have hbody : ∀ k, (((s.forward k).counted k).forward 1).longer
      = (s.forward (k + 1)).counted (k + 1) := by
    intro k
    rw [forward_counted, longer_counted, forward_forward]
  have hstart : (s.forward 0).counted 0 = s := by
    rw [h.forward_zero]
    cases s
    simp only at hcount
    simp [TextEditor.counted, hcount, u32]
  have hsteps : ∀ n, n ≤ w.length → (∀ k < n, (s.forward k).fileOffset ≠
      sub32 s.fileLengthBytes 1) →
      ((s.forward n).here = newline ∨ (s.forward n).fileOffset = sub32 s.fileLengthBytes 1 ∨
        (s.forward n).here = 0) →
      loop (fun s => (s.here ≠ newline ∧ s.here ≠ 0) ∧
        s.fileOffset ≠ sub32 s.fileLengthBytes 1) (fun s => (s.forward 1).longer) fuel s
          = some ((s.forward n).counted n) := by
    intro n hn hgo hstop
    have hrun := @loop_steps _ (fun s => (s.here ≠ newline ∧ s.here ≠ 0) ∧
        s.fileOffset ≠ sub32 s.fileLengthBytes 1) (fun s => (s.forward 1).longer)
      (fun k => (s.forward k).counted k) n fuel
      (fun k hk => ⟨decide_eq_true ⟨hinner k (by omega), hgo k hk⟩, hbody k⟩)
      (decide_eq_false ?_) (by omega)
    · rwa [hstart] at hrun
    · rintro ⟨⟨hline, hzero⟩, hoff⟩
      exact hstop.elim hline fun hstop => hstop.elim hoff hzero
  obtain rfl | ⟨rest, rfl⟩ := hrest
  · rcases Nat.eq_zero_or_pos w.length with hw0 | hpos
    · -- An empty last line.
      obtain rfl := List.eq_nil_of_length_eq_zero hw0
      have hhere := hbehind rfl rfl
      rw [← h.forward_zero] at hhere
      exact hsteps 0 (Nat.le_refl _) (fun k hk => absurd hk (Nat.not_lt_zero _))
        (hhere.imp_right .inr)
    · -- The last line: the search ends at the last byte.
      have hlast : sub32 s.fileLengthBytes 1 = v.length + (w.length - 1) := by
        rw [hlength, List.append_nil, sub32_eq (by rw [List.append_nil] at hfits; omega) (by omega)]
        omega
      refine hsteps (w.length - 1) (by omega) (fun k hk => ?_) (.inr (.inl ?_))
      · rw [hoffset k (by omega), hlast]
        omega
      · rw [hoffset _ (by omega), hlast]
  · -- Any other line: the search ends at its line feed.
    have hlast : sub32 s.fileLengthBytes 1 = v.length + w.length + rest.length := by
      rw [hlength, sub32_eq (by omega) (by simp only [List.length_append, List.length_cons]; omega),
        List.length_append, List.length_cons]
      omega
    have hstop : (s.forward w.length).here = newline :=
      @Stands.ahead _ (w ++ newline :: rest) v w.length newline h (by simp)
    refine hsteps w.length (Nat.le_refl _) (fun k hk => ?_) (.inl hstop)
    rw [hoffset k (by omega), hlast]
    omega

/-- A cursor that is right of the line's end is taken there. -/
theorem clip_eq (hx : s.cursorX + 1 < 4294967296) (hpos : 0 < s.currentLineLength)
    (hlt : s.currentLineLength < 4294967296) :
    s.clip = { s with cursorX := min s.cursorX (s.currentLineLength - 1) } := by
  have hx' : u32 (s.cursorX + 1) = s.cursorX + 1 := u32_eq hx
  have hl' : sub32 s.currentLineLength 1 = s.currentLineLength - 1 := sub32_eq hlt hpos
  unfold TextEditor.clip
  rw [hx', hl']
  split
  · next h => rw [Nat.min_eq_right (by omega)]
  · next h => rw [Nat.min_eq_left (by omega)]

/-- The editor in column `x` of a line that begins behind `start` characters and has `length`
counted. -/
def TextEditor.on (s : TextEditor) (start x length : Nat) : TextEditor :=
  { s with
    filePtr := s.fileAddress + (start + x)
    fileOffset := start + x
    cursorX := x
    currentLineLength := length }

/-- **Up arrow**: to the line `w`, behind `rest`. -/
theorem moveUpLine_eq (h : Stands s ⟨u ++ newline :: (w ++ rest), v⟩) (hu : newline ∉ u)
    (hw : newline ∉ w) (hrest : LineEnd rest) (hlong : w ≠ [] ∨ rest ≠ [])
    (hx : s.cursorX = u.length) (hrow : s.cursorY ≠ 0) {fuel : Nat}
    (hfuel : u.length + w.length ≤ fuel) :
    moveUpLine fuel s = some { s.on rest.length (min u.length w.length) (w.length + 1) with
      cursorY := sub32 s.cursorY 1 } := by
  obtain ⟨-, -, -, hfits⟩ := h.numbers
  simp only [List.length_append, List.length_cons] at hfits
  -- The editor on the line feed behind the line above.
  let s₀ : TextEditor := { s with cursorY := sub32 s.cursorY 1, currentLineLength := 0 }
  have hstart : Stands s₀ ⟨u ++ newline :: (w ++ rest), v⟩ := h.counters _ _ _ _
  have hfirst := @loop_toNewline _ _ _ _ hstart hu fuel (by omega)
  have hmid := @Stands.back s₀ (u ++ [newline]) (w ++ rest) v (by
    rw [List.append_assoc]
    exact hstart)
  rw [List.length_append, List.length_singleton] at hmid
  -- The editor at the start of that line.
  obtain ⟨s₁, hsecond, hline⟩ := @loop_lineStart _ _ _ _ hmid hw hrest hlong fuel (by omega)
  obtain ⟨hptr, hoffset, -, -⟩ := (@Stands.back _ w rest _ hmid).numbers
  have hlength : s₁.lineStart.currentLineLength = w.length + 1 := by
    rw [hline]
    show u32 (0 + (w.length + 1)) = _
    rw [Nat.zero_add]
    exact u32_eq (by omega)
  have hcursor : s₁.lineStart.cursorX = u.length := by
    rw [hline]
    exact hx
  have hclip := @clip_eq s₁.lineStart (by omega) (by omega) (by omega)
  rw [hlength, hcursor, Nat.add_sub_cancel] at hclip
  have hmin : min u.length w.length ≤ w.length := Nat.min_le_right _ _
  unfold moveUpLine
  rw [if_neg hrow]
  show (loop _ _ fuel (s₀.back 1)).bind _ = _
  rw [hfirst]
  show (loop _ _ fuel _).bind _ = _
  rw [hsecond]
  show some (s₁.lineStart.clip.forward s₁.lineStart.clip.cursorX) = _
  rw [hclip, hline]
  refine congrArg some (TextEditor.ext rfl ?_ rfl ?_ rfl rfl rfl rfl rfl)
  · show u32 (((s₀.back (u.length + 1)).back w.length).filePtr + min u.length w.length) = _
    rw [hptr, u32_eq, Nat.add_assoc]
    · rfl
    · show s.fileAddress + rest.length + _ < _
      omega
  · show u32 (((s₀.back (u.length + 1)).back w.length).fileOffset + min u.length w.length) = _
    rw [hoffset]
    exact u32_eq (by omega)

/-- **Down arrow**: to the line `w`.  In front of the last byte of the file the line feed is not
counted, because there is none. -/
theorem moveDownLine_eq (h : Stands s ⟨v, u ++ newline :: (w ++ rest)⟩) (hu : newline ∉ u)
    (hw : newline ∉ w) (hrest : LineEnd rest)
    (hbehind : w = [] → rest = [] → s.mem (s.fileAddress + s.fileLengthBytes) = newline ∨
      s.mem (s.fileAddress + s.fileLengthBytes) = 0)
    (hx : s.cursorX + 1 < 4294967296) (hrow : s.cursorY ≠ s.fileLengthLines) {fuel : Nat}
    (hfuel : u.length + w.length ≤ fuel) :
    moveDownLine fuel s = some { s.on (v.length + (u.length + 1))
        (min s.cursorX (lineEnd w rest)) (lineEnd w rest + 1) with
      cursorY := u32 (s.cursorY + 1) } := by
  obtain ⟨-, -, hlen, hfits⟩ := h.numbers
  simp only [List.length_append, List.length_cons] at hfits hlen
  -- The editor on the line feed at the end of this line.
  let s₀ : TextEditor := { s with cursorY := u32 (s.cursorY + 1), currentLineLength := 0 }
  have hstart : Stands s₀ ⟨v, u ++ newline :: (w ++ rest)⟩ := h.counters _ _ _ _
  have hfirst := @loop_fromNewline _ _ _ _ hstart hu fuel (by omega)
  have hmid := @Stands.forward s₀ (u ++ [newline]) (w ++ rest) v (by
    rw [List.append_assoc]
    exact hstart)
  rw [List.length_append, List.length_singleton] at hmid
  obtain ⟨hptr, hoffset, -, -⟩ := hmid.numbers
  simp only [List.length_append, List.length_reverse, List.length_singleton] at hptr hoffset
  replace hptr : (s₀.forward (u.length + 1)).filePtr
      = s.fileAddress + (u.length + 1 + v.length) := hptr
  have hnull : w = [] → rest = [] → (s₀.forward (u.length + 1)).here = newline ∨
      (s₀.forward (u.length + 1)).here = 0 := by
    intro hw' hrest'
    have hplace : (s₀.forward (u.length + 1)).filePtr = s.fileAddress + s.fileLengthBytes := by
      rw [hptr, hlen, hw', hrest']
      simp only [List.length_nil]
      omega
    rw [TextEditor.here, hplace]
    exact hbehind hw' hrest'
  -- The editor at the end of the next line.
  have hsecond := @loop_lineEnd _ _ _ _ hmid hw hrest hnull rfl fuel (by omega)
  have hn := lineEnd_le w rest
  obtain ⟨n, hdef⟩ : ∃ n, n = lineEnd w rest := ⟨_, rfl⟩
  rw [← hdef] at hsecond hn ⊢
  obtain ⟨s₁, hs₁⟩ : ∃ s₁, s₁ = (((s₀.forward (u.length + 1)).forward n).counted n).longer :=
    ⟨_, rfl⟩
  have hlength : s₁.currentLineLength = n + 1 := by
    rw [hs₁]
    show u32 (u32 (0 + n) + 1) = n + 1
    rw [Nat.zero_add, u32_eq (show n < 4294967296 by omega), u32_eq (by omega)]
  have hcursor : s₁.cursorX = s.cursorX := by
    rw [hs₁]
    rfl
  have hclip := @clip_eq s₁ (by omega) (by omega) (by omega)
  rw [hlength, hcursor, Nat.add_sub_cancel] at hclip
  have hback : sub32 (n + 1) 1 = n := by rw [sub32_eq (by omega) (by omega), Nat.add_sub_cancel]
  have hreturn : ∀ p, p + n < 4294967296 →
      u32 (sub32 (u32 (p + n)) n + min s.cursorX n) = p + min s.cursorX n := by
    intro p hp
    have hmin : min s.cursorX n ≤ n := Nat.min_le_right _ _
    rw [u32_eq (show p + n < 4294967296 by omega), sub32_eq (by omega) (by omega),
      Nat.add_sub_cancel, u32_eq (by omega)]
  unfold moveDownLine
  rw [if_neg hrow]
  show (loop _ _ fuel s₀).bind _ = _
  rw [hfirst]
  show (loop _ _ fuel ((s₀.forward u.length).forward 1)).bind _ = _
  rw [forward_forward, hsecond]
  show some (((TextEditor.clip (TextEditor.longer _)).back _).forward _) = _
  rw [← hs₁, hclip, hs₁, hback]
  refine congrArg some (TextEditor.ext rfl ?_ rfl ?_ rfl rfl rfl rfl rfl)
  · show u32 (sub32 (u32 ((s₀.forward (u.length + 1)).filePtr + n)) n + min s.cursorX n) = _
    rw [hreturn _ (by omega), hptr]
    simp only [TextEditor.on]
    omega
  · show u32 (sub32 (u32 ((s₀.forward (u.length + 1)).fileOffset + n)) n + min s.cursorX n) = _
    rw [hreturn _ (by omega), hoffset]
    simp only [TextEditor.on]
    omega

end

/-! ## 3. The cursor on its line -/

/-- **The editor shows the text `content`** with the cursor on the line `line`, between what is
`above` it (nearest first) and what is `below` it. -/
structure Shows (m : Bytes) (address : Nat) (content : List UInt8) (s : TextEditor)
    (above line below : List UInt8) : Prop where
  split : above.reverse ++ (line ++ below) = content
  line_newline : newline ∉ line
  above_end : LineEnd above
  below_end : LineEnd below
  mem : s.mem = m
  start : s.fileAddress = address
  bytes : s.fileLengthBytes = content.length
  lines : s.fileLengthLines = content.count newline
  row : s.cursorY = above.count newline
  column : s.cursorX ≤ line.length
  offset : s.fileOffset = above.length + s.cursorX
  ptr : s.filePtr = address + s.fileOffset
  lineLength : s.currentLineLength = line.length + 1 ∨
    s.currentLineLength = line.length ∧ 0 < line.length

/-- A text file in memory, of less than a sector and without a zero in it. -/
structure Loaded (m : Bytes) (address : Nat) (content : List UInt8) : Prop where
  bytes : ∀ i b, content[i]? = some b → m (address + i) = b
  nonzero : ∀ b ∈ content, b ≠ 0
  fits : address + content.length < 4294967296
  short : content.length < 512

section

variable {m : Bytes} {address : Nat} {content above line below : List UInt8} {s : TextEditor}

theorem Shows.stands (h : Shows m address content s above line below)
    (hload : Loaded m address content) :
    Stands s ⟨(line.take s.cursorX).reverse ++ above, line.drop s.cursorX ++ below⟩ := by
  have htext : (Cursor.mk ((line.take s.cursorX).reverse ++ above)
      (line.drop s.cursorX ++ below)).text = content := by
    rw [Cursor.text, List.reverse_append, List.reverse_reverse, List.append_assoc,
      ← List.append_assoc (List.take _ _), List.take_append_drop, h.split]
  have hcolumn := h.column
  refine ⟨?_, ?_, ?_, ?_, ?_, ?_⟩
  · rw [htext, h.mem, h.start]
    exact hload.bytes
  · rw [htext]
    exact hload.nonzero
  · rw [htext, h.start]
    exact hload.fits
  · simp only [h.ptr, h.start, h.offset, List.length_append, List.length_reverse,
      List.length_take]
    omega
  · simp only [h.offset, List.length_append, List.length_reverse, List.length_take]
    omega
  · rw [htext]
    exact h.bytes

/-- Where the cursor is, in numbers. -/
theorem Shows.numbers (h : Shows m address content s above line below)
    (hload : Loaded m address content) :
    s.fileOffset = above.length + s.cursorX ∧ s.filePtr = address + (above.length + s.cursorX) ∧
      s.cursorX ≤ line.length ∧ address + above.length + line.length < 4294967296 := by
  have hfits := hload.fits
  rw [← h.split] at hfits
  simp only [List.length_append, List.length_reverse] at hfits
  exact ⟨h.offset, h.offset ▸ h.ptr, h.column, by omega⟩

/-- **The cursor moves along its line.** -/
theorem Shows.slide (h : Shows m address content s above line below) {p o x : Nat}
    (hcolumn : x ≤ line.length) (hoffset : o = above.length + x) (hptr : p = address + o) :
    Shows m address content { s with filePtr := p, fileOffset := o, cursorX := x }
      above line below :=
  { h with column := hcolumn, offset := hoffset, ptr := hptr }

theorem Shows.left (h : Shows m address content s above line below)
    (hload : Loaded m address content) : Shows m address content (moveLeft s) above line below := by
  obtain ⟨hoffset, hptr, hcolumn, hfits⟩ := h.numbers hload
  unfold moveLeft
  split
  · next hx =>
    have hx' : sub32 s.cursorX 1 = s.cursorX - 1 := sub32_eq (by omega) (by omega)
    have ho' : sub32 s.fileOffset 1 = s.fileOffset - 1 := sub32_eq (by omega) (by omega)
    have hp' : sub32 s.filePtr 1 = s.filePtr - 1 := sub32_eq (by omega) (by omega)
    simp only [TextEditor.back, hx', ho', hp']
    exact h.slide (by omega) (by omega) (by omega)
  · exact h

theorem Shows.home (h : Shows m address content s above line below)
    (hload : Loaded m address content) : Shows m address content (moveHome s) above line below := by
  obtain ⟨hoffset, hptr, hcolumn, hfits⟩ := h.numbers hload
  have ho' : sub32 s.fileOffset s.cursorX = s.fileOffset - s.cursorX :=
    sub32_eq (by omega) (by omega)
  have hp' : sub32 s.filePtr s.cursorX = s.filePtr - s.cursorX := sub32_eq (by omega) (by omega)
  simp only [moveHome, TextEditor.back, ho', hp']
  exact h.slide (by omega) (by omega) (by omega)

/-- Right arrow, where it does not go past the end of the line. -/
theorem Shows.right (h : Shows m address content s above line below)
    (hload : Loaded m address content)
    (hinside : s.cursorX < s.currentLineLength → s.cursorX < line.length) :
    Shows m address content (moveRight s) above line below := by
  obtain ⟨hoffset, hptr, hcolumn, hfits⟩ := h.numbers hload
  unfold moveRight
  split
  · next hx =>
    have hlt := hinside hx
    have hx' : u32 (s.cursorX + 1) = s.cursorX + 1 := u32_eq (by omega)
    have ho' : u32 (s.fileOffset + 1) = s.fileOffset + 1 := u32_eq (by omega)
    have hp' : u32 (s.filePtr + 1) = s.filePtr + 1 := u32_eq (by omega)
    simp only [TextEditor.forward, hx', ho', hp']
    exact h.slide (by omega) (by omega) (by omega)
  · exact h

/-- The way to the last column that `current_line_length` counts, whichever side it is on. -/
theorem Shows.toEnd (h : Shows m address content s above line below)
    (hload : Loaded m address content) : Shows m address content (moveEnd s) above line below := by
  obtain ⟨hoffset, hptr, hcolumn, hfits⟩ := h.numbers hload
  have hlength := h.lineLength
  have hmove : ∀ p, s.cursorX ≤ p → p + line.length < 4294967296 + s.cursorX →
      u32 (p + sub32 (sub32 s.currentLineLength 1) s.cursorX)
        = p - s.cursorX + (s.currentLineLength - 1) := by
    intro p hp hp'
    unfold u32 sub32 u32
    omega
  have hx' := hmove s.cursorX (Nat.le_refl _) (by omega)
  have ho' := hmove s.fileOffset (by omega) (by omega)
  have hp' := hmove s.filePtr (by omega) (by omega)
  simp only [moveEnd, TextEditor.forward, hx', ho', hp']
  exact h.slide (by omega) (by omega) (by omega)

theorem count_line (h : newline ∉ line) : line.count newline = 0 := List.count_eq_zero.mpr h

/-- **Up arrow**, where the line above is not an empty first line. -/
theorem Shows.up (h : Shows m address content s above line below)
    (hload : Loaded m address content) (hclear : s.cursorY = 1 → content.head? ≠ some newline) :
    ∃ s' above' line' below', (∀ fuel, content.length ≤ fuel → moveUpLine fuel s = some s') ∧
      Shows m address content s' above' line' below' := by
  by_cases hrow : s.cursorY = 0
  · exact ⟨s, above, line, below, fun fuel _ => if_pos hrow, h⟩
  have hne : above ≠ [] := by
    rintro rfl
    exact hrow (h.row.trans List.count_nil)
  obtain ⟨v, rfl⟩ := h.above_end.resolve_left hne
  obtain ⟨w, rest, rfl, hw, hrest⟩ := exists_line v
  have hsplit := h.split
  have hlen := congrArg List.length hsplit
  simp only [List.reverse_cons, List.reverse_append, List.length_append, List.length_reverse,
    List.length_cons, List.length_nil] at hlen
  have hcount : (newline :: (w ++ rest)).count newline = rest.count newline + 1 := by
    rw [List.count_cons_self, List.count_append, count_line hw, Nat.zero_add]
  have hlong : w ≠ [] ∨ rest ≠ [] := by
    by_contra hnone
    simp only [ne_eq, not_or, not_not] at hnone
    obtain ⟨rfl, rfl⟩ := hnone
    refine hclear (h.row.trans hcount) ?_
    rw [← hsplit]
    rfl
  have hload' := hload.fits
  obtain ⟨-, -, hcolumn, -⟩ := h.numbers hload
  have htake : (line.take s.cursorX).reverse.length = s.cursorX := by
    rw [List.length_reverse, List.length_take, Nat.min_eq_left hcolumn]
  have hpart : newline ∉ (line.take s.cursorX).reverse := fun hmem =>
    h.line_newline (List.mem_of_mem_take (List.mem_reverse.mp hmem))
  have hup := fun fuel (hfuel : content.length ≤ fuel) => @moveUpLine_eq s _ _ w rest
    (h.stands hload) hpart hw hrest hlong htake.symm hrow fuel (by omega)
  rw [htake] at hup
  refine ⟨_, rest, w.reverse, newline :: (line ++ below), hup, ?_⟩
  have hmin : min s.cursorX w.length ≤ w.length := Nat.min_le_right _ _
  exact
    { split := by
        rw [← hsplit]
        simp
      line_newline := fun hmem => hw (List.mem_reverse.mp hmem)
      above_end := hrest
      below_end := .inr ⟨_, rfl⟩
      mem := h.mem
      start := h.start
      bytes := h.bytes
      lines := h.lines
      row := by
        have := @List.count_le_length _ _ newline rest
        show sub32 s.cursorY 1 = _
        rw [h.row, hcount, sub32_eq (by omega) (by omega), Nat.add_sub_cancel]
      column := by rwa [List.length_reverse]
      offset := rfl
      ptr := congrArg (· + _) h.start
      lineLength := .inl (by rw [List.length_reverse]; rfl) }

/-- **Down arrow**, where the line below is not an empty last line with something behind it. -/
theorem Shows.down (h : Shows m address content s above line below)
    (hload : Loaded m address content)
    (hclear : s.cursorY + 1 = s.fileLengthLines → content.getLast? = some newline →
      m (address + content.length) = newline ∨ m (address + content.length) = 0) :
    ∃ s' above' line' below', (∀ fuel, content.length ≤ fuel → moveDownLine fuel s = some s') ∧
      Shows m address content s' above' line' below' := by
  by_cases hrow : s.cursorY = s.fileLengthLines
  · exact ⟨s, above, line, below, fun fuel _ => if_pos hrow, h⟩
  have hsplit := h.split
  have hne : below ≠ [] := by
    rintro rfl
    refine hrow ?_
    rw [h.row, h.lines, ← hsplit, List.append_nil, List.count_append, List.count_reverse,
      count_line h.line_newline, Nat.add_zero]
  obtain ⟨v, rfl⟩ := h.below_end.resolve_left hne
  obtain ⟨w, rest, rfl, hw, hrest⟩ := exists_line v
  have hlen := congrArg List.length hsplit
  simp only [List.length_append, List.length_reverse, List.length_cons] at hlen
  have hlines : s.fileLengthLines = s.cursorY + 1 + rest.count newline := by
    rw [h.lines, h.row, ← hsplit]
    simp only [List.count_append, List.count_reverse, List.count_cons_self,
      count_line h.line_newline, count_line hw]
    omega
  have hload' := hload.fits
  obtain ⟨hoffset, -, hcolumn, -⟩ := h.numbers hload
  have hpart : newline ∉ line.drop s.cursorX := fun hmem =>
    h.line_newline (List.mem_of_mem_drop hmem)
  have hbehind : w = [] → rest = [] → s.mem (s.fileAddress + s.fileLengthBytes) = newline ∨
      s.mem (s.fileAddress + s.fileLengthBytes) = 0 := by
    rintro rfl rfl
    rw [h.mem, h.start, h.bytes]
    refine hclear (by simpa using hlines.symm) ?_
    rw [← hsplit]
    simp [← List.append_assoc]
  have hdrop : (line.drop s.cursorX).length = line.length - s.cursorX := List.length_drop
  have htake : (line.take s.cursorX).length = s.cursorX := by
    rw [List.length_take, Nat.min_eq_left hcolumn]
  have hdown := fun fuel (hfuel : content.length ≤ fuel) => @moveDownLine_eq s _ _ w rest
    (h.stands hload) hpart hw hrest hbehind (by omega) hrow fuel (by omega)
  refine ⟨_, newline :: (line.reverse ++ above), w, rest, hdown, ?_⟩
  have hle := lineEnd_le w rest
  have hmin : min s.cursorX (lineEnd w rest) ≤ lineEnd w rest := Nat.min_le_right _ _
  exact
    { split := by
        rw [← hsplit]
        simp
      line_newline := hw
      above_end := .inr ⟨_, rfl⟩
      below_end := hrest
      mem := h.mem
      start := h.start
      bytes := h.bytes
      lines := h.lines
      row := by
        have := @List.count_le_length _ _ newline above
        have hcount : (newline :: (line.reverse ++ above)).count newline
            = above.count newline + 1 := by
          rw [List.count_cons_self, List.count_append, List.count_reverse,
            count_line h.line_newline, Nat.zero_add]
        show u32 (s.cursorY + 1) = _
        rw [h.row, hcount]
        exact u32_eq (by omega)
      column := by
        show min s.cursorX (lineEnd w rest) ≤ _
        omega
      offset := by
        simp only [TextEditor.on, List.length_cons, List.length_append, List.length_reverse]
        omega
      ptr := congrArg (· + _) h.start
      lineLength := by
        show lineEnd w rest + 1 = _ ∨ lineEnd w rest + 1 = _ ∧ _
        unfold lineEnd
        split <;> omega }

/-! ## 4. The start -/

/-- The text, cut at an offset. -/
def cutAt (content : List UInt8) (offset : Nat) : Cursor :=
  ⟨(content.take offset).reverse, content.drop offset⟩

/-- The loop over the bytes of the file counts them and their line feeds. -/
theorem countBytes_eq {l : List UInt8} {i : Nat}
    (hbytes : ∀ k b, l[k]? = some b → s.mem (s.filePtr + (i + k)) = b)
    (hnonzero : ∀ b ∈ l, b ≠ 0) (hlen : s.fileLengthBytes + l.length < 4294967296)
    (hlines : s.fileLengthLines + l.length < 4294967296) :
    (countBytes s l.length i).mem = s.mem ∧ (countBytes s l.length i).filePtr = s.filePtr ∧
      (countBytes s l.length i).fileAddress = s.fileAddress ∧
      (countBytes s l.length i).fileLengthBytes = s.fileLengthBytes + l.length ∧
      (countBytes s l.length i).fileLengthLines = s.fileLengthLines + l.count newline := by
  induction l generalizing s i with
  | nil => exact ⟨rfl, rfl, rfl, rfl, rfl⟩
  | cons b l ih =>
    have hb : s.mem (s.filePtr + i) = b := hbytes 0 b rfl
    have hrest : ∀ k c, l[k]? = some c → s.mem (s.filePtr + (i + 1 + k)) = c := by
      intro k c hc
      have := hbytes (k + 1) c hc
      rwa [show i + (k + 1) = i + 1 + k by omega] at this
    have hzero : ¬ s.mem (s.filePtr + i) = 0 := by
      rw [hb]
      exact hnonzero b List.mem_cons_self
    simp only [List.length_cons] at hlen hlines
    have hbytes' : u32 (s.fileLengthBytes + 1) = s.fileLengthBytes + 1 := u32_eq (by omega)
    have hlines' : u32 (s.fileLengthLines + 1) = s.fileLengthLines + 1 := u32_eq (by omega)
    rw [List.length_cons, countBytes, if_neg hzero]
    split
    · next hnl =>
      have hnext := ih (s := { s with
          cursorX := 0
          cursorY := u32 (s.cursorY + 1)
          fileLengthLines := u32 (s.fileLengthLines + 1)
          fileOffset := u32 (s.fileOffset + 1)
          fileLengthBytes := u32 (s.fileLengthBytes + 1) }) (i := i + 1) hrest
        (fun c hc => hnonzero c (List.mem_cons_of_mem _ hc)) (by simp only [hbytes']; omega)
        (by simp only [hlines']; omega)
      obtain ⟨hmem, hptr, haddress, hlength, hcount⟩ := hnext
      refine ⟨hmem, hptr, haddress, hlength.trans ?_, hcount.trans ?_⟩
      · simp only [hbytes']
        omega
      · rw [← hb, hnl, List.count_cons_self]
        simp only [hlines']
        omega
    · next hnl =>
      have hnext := ih (s := { s with
          fileOffset := u32 (s.fileOffset + 1)
          fileLengthBytes := u32 (s.fileLengthBytes + 1) }) (i := i + 1) hrest
        (fun c hc => hnonzero c (List.mem_cons_of_mem _ hc)) (by simp only [hbytes']; omega)
        (by simp only; omega)
      obtain ⟨hmem, hptr, haddress, hlength, hcount⟩ := hnext
      refine ⟨hmem, hptr, haddress, hlength.trans ?_, hcount.trans ?_⟩
      · simp only [hbytes']
        omega
      · rw [← hb, List.count_cons_of_ne hnl]

/-- The first line is measured up to its line feed or the end of the file. -/
theorem firstLine_eq {u rest : List UInt8} (hbytes : ∀ k b, (u ++ rest)[k]? = some b →
      s.mem (s.filePtr + k) = b) (hu : newline ∉ u) (hrest : LineEnd rest)
    (hlen : s.fileLengthBytes = u.length + rest.length) (hlt : s.fileLengthBytes < 4294967296)
    (hoffset : s.fileOffset = 0) (hcount : s.currentLineLength = 0) {fuel : Nat}
    (hfuel : u.length ≤ fuel) :
    firstLine fuel 0 s = some { s with fileOffset := u.length, currentLineLength := u.length } := by
  have hstart : (0, s) = (0, { s with fileOffset := 0, currentLineLength := 0 }) :=
    congrArg (Prod.mk 0) (TextEditor.ext rfl rfl rfl hoffset rfl rfl hcount rfl rfl)
  have hstep : ∀ k < u.length, s.mem (s.filePtr + k) ≠ newline := by
    intro k hk
    have hb : u[k]? = some u[k] := List.getElem?_eq_getElem hk
    rw [hbytes k u[k] (by rw [List.getElem?_append_left hk, hb])]
    exact ne_newline_of_getElem hu hb
  have hrun := @loop_steps (Nat × TextEditor)
    (fun x => x.2.mem (x.2.filePtr + x.1) ≠ newline ∧ x.2.fileOffset ≠ x.2.fileLengthBytes)
    (fun x => (x.1 + 1, { x.2.longer with fileOffset := u32 (x.2.fileOffset + 1) }))
    (fun k => (k, { s with fileOffset := k, currentLineLength := k })) u.length fuel
    (fun k hk => ⟨decide_eq_true ⟨hstep k hk, ?_⟩, ?_⟩) (decide_eq_false ?_) hfuel
  · rw [firstLine, hstart]
    simp only [hrun]
    rfl
  · show k ≠ s.fileLengthBytes
    omega
  · have hk' : u32 (k + 1) = k + 1 := u32_eq (by omega)
    simp only [TextEditor.longer, hk']
  · rintro ⟨hline, hend⟩
    obtain rfl | ⟨rest, rfl⟩ := hrest
    · exact hend hlen.symm
    · exact hline (hbytes u.length newline (by simp))

/-- **A file is loaded with the cursor at its start.** -/
theorem load_shows (hload : Loaded m address content) :
    ∃ s line below, (∀ fuel, content.length ≤ fuel →
        editorLoadFile fuel m address content.length = some s) ∧
      Shows m address content s [] line below := by
  obtain ⟨u, rest, rfl, hu, hrest⟩ := exists_line content
  have hfits := hload.fits
  obtain ⟨s₀, hs₀⟩ : ∃ s₀ : TextEditor, s₀ = ⟨m, address, address, 0, 0, 0, 0, 0, 0⟩ := ⟨_, rfl⟩
  obtain ⟨s₁, hs₁⟩ : ∃ s₁, s₁ = countBytes s₀ (u ++ rest).length 0 := ⟨_, rfl⟩
  obtain ⟨hmem, hptr, haddress, hlength, hlines⟩ := @countBytes_eq s₀ (u ++ rest) 0
    (by rw [hs₀]; simpa using hload.bytes) hload.nonzero (by rw [hs₀]; simp only; omega)
    (by rw [hs₀]; simp only; omega)
  rw [← hs₁] at hmem hptr haddress hlength hlines
  simp only [hs₀, Nat.zero_add] at hmem hptr haddress hlength hlines
  have hfirst := fun fuel (hfuel : (u ++ rest).length ≤ fuel) => @firstLine_eq
    { s₁ with fileOffset := 0, cursorX := 0, cursorY := 0, currentLineLength := 0 } u rest
    (by simpa only [hmem, hptr] using hload.bytes) hu hrest
    (by simpa only [List.length_append] using hlength) (by simp only [hlength]; omega) rfl rfl fuel
    (by rw [List.length_append] at hfuel; omega)
  refine ⟨{ s₁ with
      fileOffset := 0
      cursorX := 0
      cursorY := 0
      currentLineLength := u.length + 1 }, u, rest, fun fuel hfuel => ?_, ?_⟩
  · have hshort := hload.short
    rw [List.length_append] at hshort
    have hlonger : u32 (u.length + 1) = u.length + 1 := u32_eq (by omega)
    unfold editorLoadFile
    simp only [← hs₀, ← hs₁, hfirst fuel hfuel]
    exact congrArg some (TextEditor.ext rfl rfl rfl rfl rfl rfl hlonger rfl rfl)
  · exact
      { split := rfl
        line_newline := hu
        above_end := .inl rfl
        below_end := hrest
        mem := hmem
        start := haddress
        bytes := hlength
        lines := hlines
        row := rfl
        column := Nat.zero_le _
        offset := rfl
        ptr := hptr
        lineLength := .inl rfl }

/-- The cut that the offset stands for. -/
theorem Shows.cut (h : Shows m address content s above line below) :
    cutAt content s.fileOffset
      = ⟨(line.take s.cursorX).reverse ++ above, line.drop s.cursorX ++ below⟩ := by
  have hoffset : s.fileOffset = above.reverse.length + s.cursorX := by
    rw [List.length_reverse, h.offset]
  have htake : content.take s.fileOffset = above.reverse ++ line.take s.cursorX := by
    rw [← h.split, hoffset, List.take_length_add_append, List.take_append_of_le_length h.column]
  have hdrop : content.drop s.fileOffset = line.drop s.cursorX ++ below := by
    rw [← h.split, hoffset, List.drop_length_add_append, List.drop_append_of_le_length h.column]
  rw [cutAt, htake, hdrop, List.reverse_append, List.reverse_reverse]

/-! ## 5. Runs -/

/-- **What the variables say is where the cursor is.** -/
structure Consistent (m : Bytes) (content : List UInt8) (s : TextEditor) : Prop where
  untouched : s.mem = m
  length : s.fileLengthBytes = content.length
  inside : s.fileOffset ≤ s.fileLengthBytes
  ptr : s.filePtr = s.fileAddress + s.fileOffset
  row : s.cursorY = (cutAt content s.fileOffset).row
  column : s.cursorX = (cutAt content s.fileOffset).column

theorem Shows.consistent (h : Shows m address content s above line below) :
    Consistent m content s where
  untouched := h.mem
  length := h.bytes
  inside := by
    have hlen := congrArg List.length h.split
    have hcolumn := h.column
    simp only [List.length_append, List.length_reverse] at hlen
    rw [h.bytes, h.offset]
    omega
  ptr := by rw [h.ptr, h.start]
  row := by
    have hpart : newline ∉ line.take s.cursorX := fun hmem =>
      h.line_newline (List.mem_of_mem_take hmem)
    rw [h.cut, h.row, Cursor.row, List.count_append, List.count_reverse, count_line hpart,
      Nat.zero_add]
  column := by
    have hpart : newline ∉ (line.take s.cursorX).reverse := fun hmem =>
      h.line_newline (List.mem_of_mem_take (List.mem_reverse.mp hmem))
    rw [h.cut, column_line hpart h.above_end, List.length_reverse, List.length_take,
      Nat.min_eq_left h.column]

/-- **The condition on a key**: Right arrow does not leave the line, Up arrow does not go to an
empty first line, and behind an empty last line that Down arrow goes to stands a zero or a line
feed. -/
def KeepsClear (m : Bytes) (content : List UInt8) (s : TextEditor) : Navigation → Prop
  | .right => s.cursorX < s.currentLineLength → (cutAt content s.fileOffset).ahead ≠ 0
  | .up => s.cursorY = 1 → content.head? ≠ some newline
  | .down => s.cursorY + 1 = s.fileLengthLines → content.getLast? = some newline →
      m (s.fileAddress + content.length) = newline ∨ m (s.fileAddress + content.length) = 0
  | .left | .home | .toEnd => True

/-- **One key.** -/
theorem Shows.press (h : Shows m address content s above line below)
    (hload : Loaded m address content) {key : Navigation} (hclear : KeepsClear m content s key) :
    ∃ s' above' line' below', Handled s key.code s' ∧
      Shows m address content s' above' line' below' := by
  cases key with
  | left => exact ⟨_, _, _, _, ⟨0, fun _ _ => rfl⟩, h.left hload⟩
  | right =>
    refine ⟨_, _, _, _, ⟨0, fun _ _ => rfl⟩, h.right hload fun hlt => ?_⟩
    have hahead := hclear hlt
    have hpart : newline ∉ line.drop s.cursorX := fun hmem =>
      h.line_newline (List.mem_of_mem_drop hmem)
    rw [h.cut, ahead_line hpart h.below_end, List.length_drop] at hahead
    omega
  | up =>
    obtain ⟨s', above', line', below', hup, h'⟩ := h.up hload hclear
    exact ⟨s', above', line', below', ⟨_, fun fuel hfuel => hup fuel hfuel⟩, h'⟩
  | down =>
    obtain ⟨s', above', line', below', hdown, h'⟩ := h.down hload (by
      rw [← h.start]
      exact hclear)
    exact ⟨s', above', line', below', ⟨_, fun fuel hfuel => hdown fuel hfuel⟩, h'⟩
  | home => exact ⟨_, _, _, _, ⟨0, fun _ _ => rfl⟩, h.home hload⟩
  | toEnd => exact ⟨_, _, _, _, ⟨0, fun _ _ => rfl⟩, h.toEnd hload⟩

end

/-- The states that the cursor keys lead to from a file's start, each key meeting `ok`. -/
def Navigated (ok : TextEditor → Navigation → Prop) (s₀ s : TextEditor) : Prop :=
  Reach (fun s key s' => Handled s (Navigation.code key) s') ok s₀ s

/-- **While every key keeps clear of the three cases, the cursor is where the variables say, and
every key is handled.** -/
theorem navigation_consistent (m : Bytes) (address : Nat) (content : List UInt8)
    (hload : Loaded m address content) :
    ∃ s₀, (∀ fuel, content.length ≤ fuel →
        editorLoadFile fuel m address content.length = some s₀) ∧
      ∀ s, Navigated (KeepsClear m content) s₀ s → Consistent m content s ∧
        ∀ key, KeepsClear m content s key → ∃ s', Handled s key.code s' := by
  obtain ⟨s₀, line, below, hstart, h₀⟩ := load_shows hload
  refine ⟨s₀, hstart, fun s hreach => ?_⟩
  have hshows : ∃ above line below, Shows m address content s above line below := by
    refine @Reach.invariant _ _ _ _ _
      (fun s => ∃ above line below, Shows m address content s above line below)
      ⟨[], line, below, h₀⟩ ?_ _ hreach
    rintro s key s' ⟨above, line, below, h⟩ hok hnext
    obtain ⟨s'', above', line', below', hhandled, h'⟩ := h.press hload hok
    obtain rfl := hnext.unique hhandled
    exact ⟨above', line', below', h'⟩
  obtain ⟨above, line, below, h⟩ := hshows
  refine ⟨h.consistent, fun key hok => ?_⟩
  obtain ⟨s', -, -, -, hhandled, -⟩ := h.press hload hok
  exact ⟨s', hhandled⟩

/-- A file of two lines, `ab` and `c`, at `0x1000`. -/
def linesText : List UInt8 := [0x61, 0x62, newline, 0x63]

def linesMem : Bytes := fun p => linesText.getD (p - 0x1000) 0

theorem lines_loaded : Loaded linesMem 0x1000 linesText where
  bytes i b hb := by
    rw [linesMem, Nat.add_sub_cancel_left, List.getD_eq_getElem?_getD, hb, Option.getD_some]
  nonzero := by decide +kernel
  fits := by decide
  short := by decide

/-- The editor with that file, then behind Right and Down, then behind Home and Up. -/
def linesStart : TextEditor :=
  (editorLoadFile 4 linesMem 0x1000 4).getD (newFile linesMem 0x1000)

def linesDown : TextEditor := (moveDownLine 8 (moveRight linesStart)).getD linesStart

def linesUp : TextEditor := (moveUpLine 8 (moveHome linesDown)).getD linesStart

/-- The loops of Up and Down take at most 8 turns there. -/
theorem lines_handled : Handled (moveRight linesStart) (Navigation.code .down) linesDown ∧
    Handled (moveHome linesDown) (Navigation.code .up) linesUp := by
  constructor <;> refine ⟨8, fun fuel hfuel => ?_⟩ <;>
    obtain ⟨k, rfl⟩ := Nat.exists_eq_add_of_le' hfuel <;> rfl

/-- The theorem behind Right, Down, Home, Up and End: the cursor is at the end of the first line. -/
theorem navigation_lines : Consistent linesMem linesText (moveEnd linesUp) ∧
    (moveEnd linesUp).cursorX = 2 ∧ (moveEnd linesUp).cursorY = 0 := by
  obtain ⟨s₀, hload, hrun⟩ := navigation_consistent linesMem 0x1000 linesText lines_loaded
  have hstart : editorLoadFile 4 linesMem 0x1000 4 = some linesStart := rfl
  obtain rfl : linesStart = s₀ := Option.some.inj (hstart.symm.trans (hload 4 (Nat.le_refl _)))
  obtain ⟨hdown, hup⟩ := lines_handled
  have hfirst : Navigated (KeepsClear linesMem linesText) linesStart linesDown :=
    .tail (a := .down) (.tail (a := .right) .refl (fun _ => by decide) ⟨0, fun _ _ => rfl⟩)
      (fun _ h => absurd h (by decide)) hdown
  have hsecond : Navigated (KeepsClear linesMem linesText) linesStart linesUp :=
    .tail (a := .up) (.tail (a := .home) hfirst trivial ⟨0, fun _ _ => rfl⟩)
      (fun _ => by decide) hup
  have hlast : Navigated (KeepsClear linesMem linesText) linesStart (moveEnd linesUp) :=
    .tail (a := .toEnd) hsecond trivial ⟨0, fun _ _ => rfl⟩
  exact ⟨(hrun _ hlast).1, by decide, by decide⟩

/-- A file with the one letter `a`, at `0x1000`. -/
def letterMem : Bytes := fun p => if p = 0x1000 then 0x61 else 0

theorem letter_loaded : Loaded letterMem 0x1000 [0x61] where
  bytes i b hb := by
    obtain ⟨hi, rfl⟩ := List.getElem?_eq_some_iff.mp hb
    obtain rfl : i = 0 := Nat.lt_one_iff.mp hi
    rfl
  nonzero := by simp
  fits := by decide
  short := by decide

/-- The editor with that file. -/
def letterStart : TextEditor :=
  { mem := letterMem
    filePtr := 0x1000
    fileAddress := 0x1000
    fileOffset := 0
    cursorX := 0
    cursorY := 0
    currentLineLength := 2
    fileLengthLines := 0
    fileLengthBytes := 1 }

/-- **Right arrow twice leaves a file of one letter.** -/
theorem navigation_leaves : ¬ ∀ (m : Bytes) (address : Nat) (content : List UInt8),
    Loaded m address content → content ≠ [] →
      ∃ s₀, (∀ fuel, content.length ≤ fuel →
          editorLoadFile fuel m address content.length = some s₀) ∧
        ∀ s, Navigated (fun _ _ => True) s₀ s → Consistent m content s ∧
          ∀ key : Navigation, ∃ s', Handled s key.code s' := by
  intro hall
  obtain ⟨s₀, hload, hrun⟩ := hall letterMem 0x1000 [0x61] letter_loaded (by decide)
  have hstart : editorLoadFile 1 letterMem 0x1000 1 = some letterStart := rfl
  obtain rfl : letterStart = s₀ := Option.some.inj (hstart.symm.trans (hload 1 (Nat.le_refl _)))
  have hright : ∀ s, Handled s (Navigation.code .right) (moveRight s) :=
    fun _ => ⟨0, fun _ _ => rfl⟩
  have hreach : Navigated (fun _ _ => True) letterStart (moveRight (moveRight letterStart)) :=
    .tail (a := .right) (.tail (a := .right) .refl trivial (hright _)) trivial (hright _)
  exact absurd (hrun _ hreach).1.inside (by decide)

end AmateurOs.Editor
