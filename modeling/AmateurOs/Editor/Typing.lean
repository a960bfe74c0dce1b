/-
# Editing a new file

The reference editor is a `Cursor`: a list of characters with a cursor in it, on which a key
inserts, removes or moves.  The text editor is meant to keep the bytes of that list in its buffer.
It does so except in three places:

* the capital letters `G`, `H`, `K`, `M`, `O`, `P` and `S` are taken for keys of the keypad;
* at the end of the file Backspace and Delete only move the cursor back, and in an empty file
  Delete counts the length down below zero;
* at the end of a line Backspace does nothing, because the character under the cursor is a line
  feed.

**In every run that keeps clear of these three, Ctrl-S writes the text of the reference editor**
(`editing_refines`).
-/
import AmateurOs.Editor.Cursor

namespace AmateurOs.Editor

open AmateurOs.Lib

/-! ## 1. The reference editor -/

/-- The keys that edit, with the printable characters. -/
inductive Typing where
  | char (b : UInt8) (printable : 0x20 ≤ b ∧ b ≤ 0x7e)
  | enter
  | backspace
  | delete
  | left
  | right

/-- What `get_key` delivers. -/
def Typing.code : Typing → UInt8
  | .char b _ => b
  | .enter => enterKey
  | .backspace => backspaceKey
  | .delete => delKey
  | .left => leftArrow
  | .right => rightArrow

namespace Cursor

def insert (c : Cursor) (b : UInt8) : Cursor := ⟨b :: c.before, c.after⟩

/-- The character before the cursor goes, if the line has one there. -/
def backspace (c : Cursor) : Cursor := if c.column = 0 then c else ⟨c.before.tail, c.after⟩

/-- The character under the cursor goes, if the line has one there. -/
def delete (c : Cursor) : Cursor := if c.ahead = 0 then c else ⟨c.before, c.after.tail⟩

def left (c : Cursor) : Cursor :=
  match c.before with
  | b :: before => if b = newline then c else ⟨before, b :: c.after⟩
  | [] => c

def right (c : Cursor) : Cursor :=
  match c.after with
  | b :: after => if b = newline then c else ⟨b :: c.before, after⟩
  | [] => c

/-- One key. -/
def press (c : Cursor) : Typing → Cursor
  | .char b _ => c.insert b
  | .enter => c.insert newline
  | .backspace => c.backspace
  | .delete => c.delete
  | .left => c.left
  | .right => c.right

end Cursor

section

variable {b : UInt8} {w v v' : List UInt8}

theorem column_cons (h : b ≠ newline) :
    (Cursor.mk (b :: w) v).column = (Cursor.mk w v').column + 1 := by
  simp [Cursor.column, h]

theorem column_newline : (Cursor.mk (newline :: w) v).column = 0 := by
  simp [Cursor.column]

theorem ahead_cons (h : b ≠ newline) :
    (Cursor.mk v (b :: w)).ahead = (Cursor.mk v' w).ahead + 1 := by
  simp [Cursor.ahead, h]

theorem ahead_newline : (Cursor.mk v (newline :: w)).ahead = 0 := by
  simp [Cursor.ahead]

theorem exists_before {c : Cursor} (h : c.column ≠ 0) :
    ∃ b w, b ≠ newline ∧ c = ⟨b :: w, c.after⟩ := by
  obtain ⟨before, after⟩ := c
  cases before with
  | nil => exact absurd rfl h
  | cons b w => exact ⟨b, w, fun hb => h (hb ▸ column_newline), rfl⟩

theorem exists_after {c : Cursor} (h : c.ahead ≠ 0) :
    ∃ b w, b ≠ newline ∧ c = ⟨c.before, b :: w⟩ := by
  obtain ⟨before, after⟩ := c
  cases after with
  | nil => exact absurd rfl h
  | cons b w => exact ⟨b, w, fun hb => h (hb ▸ ahead_newline), rfl⟩

end

/-! ## 2. The buffer -/

/-- **The buffer at `address` holds the text**, and zeros behind it. -/
def Holds (m : Bytes) (address : Nat) (text : List UInt8) : Prop :=
  ∀ i < 512, m (address + i) = text.getD i 0

/-- Every byte from `d` on moves up by one. -/
theorem moveUp_apply {m : Bytes} {d n q : Nat} (h : d + n < 4294967296) :
    moveUp m (d + n) n q = if d < q ∧ q ≤ d + n then m (q - 1) else m q := by
  induction n generalizing m with
  | zero => exact (if_neg (by omega)).symm
  | succ n ih =>
    have hback : sub32 (d + (n + 1)) 1 = d + n := by
      rw [sub32_eq (by omega) (by omega)]
      omega
    rw [moveUp, hback, ih (by omega)]
    by_cases hq : q = d + (n + 1)
    · rw [if_neg (by omega), if_pos (by omega), hq, Function.update_self]
      rfl
    · rw [Function.update_of_ne hq]
      by_cases hin : d < q ∧ q ≤ d + n
      · rw [if_pos hin, if_pos (by omega), Function.update_of_ne (by omega)]
      · rw [if_neg hin, if_neg (by omega)]

/-- Every byte behind `d` moves down by one. -/
theorem memcpy_apply {m : Bytes} {d n q : Nat} (hroom : d + n < 4294967296) :
    memcpy m d (d + 1) n q = if d ≤ q ∧ q < d + n then m (q + 1) else m q := by
  induction n generalizing q with
  | zero => exact (if_neg (by omega)).symm
  | succ n ih =>
    rw [memcpy_succ, u32_eq (by omega), u32_eq (by omega)]
    by_cases hq : q = d + n
    · rw [hq, Function.update_self, ih (by omega), if_neg (by omega), if_pos (by omega)]
      congr 1
      omega
    · rw [Function.update_of_ne hq, ih (by omega)]
      by_cases hin : d ≤ q ∧ q < d + n
      · rw [if_pos hin, if_pos (by omega)]
      · rw [if_neg hin, if_neg (by omega)]

/-- A character is inserted behind `f`. -/
theorem Holds.insert {m : Bytes} {address : Nat} {f r : List UInt8} (h : Holds m address (f ++ r))
    (hroom : address + 512 ≤ 4294967296) (hshort : (f ++ r).length < 511) (b : UInt8) :
    Holds (Function.update (moveUp m (address + f.length + r.length) r.length)
      (address + f.length) b) address (f ++ b :: r) := by
  rw [List.length_append] at hshort
  intro i hi
  rcases Nat.lt_trichotomy i f.length with hlt | rfl | hgt
  · rw [Function.update_of_ne (by omega), moveUp_apply (by omega), if_neg (by omega), h i hi,
      List.getD_append _ _ _ _ hlt, List.getD_append _ _ _ _ hlt]
  · rw [Function.update_self, List.getD_append_right _ _ _ _ (Nat.le_refl _), Nat.sub_self]
    rfl
  · obtain ⟨j, rfl⟩ : ∃ j, i = f.length + (j + 1) := ⟨i - f.length - 1, by omega⟩
    have hnew : (f ++ b :: r).getD (f.length + (j + 1)) 0 = r.getD j 0 := by
      rw [List.getD_append_right _ _ _ _ (by omega), Nat.add_sub_cancel_left]
      rfl
    rw [Function.update_of_ne (by omega), moveUp_apply (by omega), hnew]
    by_cases hj : j < r.length
    · rw [if_pos (by omega), show address + (f.length + (j + 1)) - 1 = address + (f.length + j) by
        omega, h _ (by omega), List.getD_append_right _ _ _ _ (by omega), Nat.add_sub_cancel_left]
    · rw [if_neg (by omega), h _ hi, List.getD_append_right _ _ _ _ (by omega),
        Nat.add_sub_cancel_left, List.getD_eq_default _ _ (by omega),
        List.getD_eq_default _ _ (by omega)]

/-- The character behind `f` is removed. -/
theorem Holds.remove {m : Bytes} {address : Nat} {f r : List UInt8} {b : UInt8}
    (h : Holds m address (f ++ b :: r)) (hroom : address + 512 ≤ 4294967296)
    (hshort : (f ++ b :: r).length < 512) :
    Holds (memcpy m (address + f.length) (address + f.length + 1) (r.length + 1)) address
      (f ++ r) := by
  rw [List.length_append, List.length_cons] at hshort
  intro i hi
  rw [memcpy_apply (by omega)]
  by_cases hlt : i < f.length
  · rw [if_neg (by omega), h i hi, List.getD_append _ _ _ _ hlt, List.getD_append _ _ _ _ hlt]
  · obtain ⟨j, rfl⟩ : ∃ j, i = f.length + j := ⟨i - f.length, by omega⟩
    have hold : (f ++ b :: r).getD (f.length + (j + 1)) 0 = r.getD j 0 := by
      rw [List.getD_append_right _ _ _ _ (by omega), Nat.add_sub_cancel_left]
      rfl
    have hnew : (f ++ r).getD (f.length + j) 0 = r.getD j 0 := by
      rw [List.getD_append_right _ _ _ _ (by omega), Nat.add_sub_cancel_left]
    rw [hnew]
    by_cases hj : j ≤ r.length
    · rw [if_pos (by omega), show address + (f.length + j) + 1 = address + (f.length + (j + 1)) by
        omega, h _ (by omega), hold]
    · have hbehind : (f ++ b :: r).length ≤ f.length + j := by
        rw [List.length_append, List.length_cons]
        omega
      rw [if_neg (by omega), h _ hi, List.getD_eq_default _ _ hbehind,
        List.getD_eq_default _ _ (by omega)]

/-! ## 3. The editor and the reference editor -/

/-- The buffer holds the text of `c`, and the pointers stand at its cut. -/
structure Buffered (s : TextEditor) (c : Cursor) : Prop where
  holds : Holds s.mem s.fileAddress c.text
  nonzero : ∀ b ∈ c.text, b ≠ 0
  short : c.text.length < 512
  room : s.fileAddress + 512 ≤ 4294967296
  ptr : s.filePtr = s.fileAddress + c.before.length
  offset : s.fileOffset = c.before.length
  length : s.fileLengthBytes = c.text.length

/-- **The editor edits the text of `c`.** -/
structure Edits (s : TextEditor) (c : Cursor) : Prop extends Buffered s c where
  column : s.cursorX = c.column
  lineLength : s.currentLineLength = c.column + c.ahead

section

variable {s : TextEditor} {c : Cursor} {b : UInt8} {w v : List UInt8}

theorem Buffered.stands (h : Buffered s c) : Stands s c where
  bytes i b hb := by
    have hlt := (List.getElem?_eq_some_iff.mp hb).1
    rw [h.holds i (Nat.lt_trans hlt h.short), List.getD_eq_getElem?_getD, hb]
    rfl
  nonzero := h.nonzero
  fits := by
    have := h.short
    have := h.room
    omega
  ptr := h.ptr
  offset := h.offset
  length := h.length

theorem column_le (c : Cursor) : c.column ≤ c.before.length :=
  (List.takeWhile_sublist _).length_le

theorem ahead_le (c : Cursor) : c.ahead ≤ c.after.length :=
  (List.takeWhile_sublist _).length_le

/-- Behind the text comes a zero. -/
theorem Buffered.behind (h : Buffered s ⟨w, v⟩) : (s.forward v.length).here = 0 := by
  obtain ⟨hptr, -, -, hfits⟩ := h.stands.numbers
  have hshort := h.short
  rw [length_text] at hshort
  simp only [TextEditor.here, TextEditor.forward]
  rw [hptr, u32_eq (by omega), Nat.add_assoc, h.holds _ hshort,
    List.getD_eq_default _ _ (by rw [length_text])]

/-- The cursor has moved in the same text. -/
theorem Edits.moved {p o x : Nat} {c' : Cursor} (h : Edits s c)
    (hs : Stands { s with filePtr := p, fileOffset := o } c') (htext : c'.text = c.text)
    (hcolumn : x = c'.column) (hline : s.currentLineLength = c'.column + c'.ahead) :
    Edits { s with filePtr := p, fileOffset := o, cursorX := x } c' where
  holds := by rw [htext]; exact h.holds
  nonzero := hs.nonzero
  short := by rw [htext]; exact h.short
  room := h.room
  ptr := hs.ptr
  offset := hs.offset
  length := hs.length
  column := hcolumn
  lineLength := hline

/-- Left arrow. -/
theorem Edits.left (h : Edits s c) : Edits (moveLeft s) c.left := by
  by_cases hcol : c.column = 0
  · have hstay : c.left = c := by
      obtain ⟨_ | ⟨b, w⟩, v⟩ := c
      · rfl
      · exact if_pos (by_contra fun hb => by simp [@column_cons b w v v hb] at hcol)
    rw [hstay, moveLeft, if_neg (by rw [h.column, hcol]; simp)]
    exact h
  · obtain ⟨b, w, hb, hc⟩ := exists_before hcol
    rw [hc] at h ⊢
    have hx : s.cursorX = (Cursor.mk w (b :: c.after)).column + 1 := by
      rw [h.column, column_cons hb]
    have hle := column_le ⟨w, b :: c.after⟩
    obtain ⟨hptr, hoffset, -, hfits⟩ := h.stands.numbers
    simp only [List.length_cons] at hptr hoffset hfits hle
    have hx' : sub32 s.cursorX 1 = (Cursor.mk w (b :: c.after)).column := by
      rw [hx, sub32_eq (by omega) (by omega), Nat.add_sub_cancel]
    have ho' : sub32 s.fileOffset 1 = s.fileOffset - 1 := sub32_eq (by omega) (by omega)
    have hp' : sub32 s.filePtr 1 = s.filePtr - 1 := sub32_eq (by omega) (by omega)
    have hmove : (Cursor.mk (b :: w) c.after).left = ⟨w, b :: c.after⟩ := if_neg hb
    have hback : Stands (s.back 1) ⟨w, b :: c.after⟩ := @Stands.back s [b] w c.after h.stands
    rw [hmove, moveLeft, if_pos (by omega)]
    simp only [TextEditor.back, ho', hp', hx'] at hback ⊢
    refine h.moved hback (text_moved [b] w c.after) rfl ?_
    rw [h.lineLength, @column_cons b w c.after (b :: c.after) hb,
      @ahead_cons b c.after w (b :: w) hb]
    omega

/-- Right arrow. -/
theorem Edits.right (h : Edits s c) : Edits (moveRight s) c.right := by
  by_cases hahead : c.ahead = 0
  · have hstay : c.right = c := by
      obtain ⟨w, _ | ⟨b, v⟩⟩ := c
      · rfl
      · exact if_pos (by_contra fun hb => by simp [@ahead_cons b v w w hb] at hahead)
    rw [hstay, moveRight, if_neg (by rw [h.column, h.lineLength, hahead]; simp)]
    exact h
  · obtain ⟨b, v, hb, hc⟩ := exists_after hahead
    rw [hc] at h ⊢
    have hle := column_le ⟨c.before, b :: v⟩
    obtain ⟨hptr, hoffset, -, hfits⟩ := h.stands.numbers
    simp only [List.length_cons] at hfits hle
    have hx' : u32 (s.cursorX + 1) = (Cursor.mk (b :: c.before) v).column := by
      rw [h.column, u32_eq (by omega), column_cons hb]
    have ho' : u32 (s.fileOffset + 1) = s.fileOffset + 1 := u32_eq (by omega)
    have hp' : u32 (s.filePtr + 1) = s.filePtr + 1 := u32_eq (by omega)
    have hmove : (Cursor.mk c.before (b :: v)).right = ⟨b :: c.before, v⟩ := if_neg hb
    have hforward : Stands (s.forward 1) ⟨b :: c.before, v⟩ :=
      @Stands.forward s [b] v c.before h.stands
    rw [hmove, moveRight,
      if_pos (by rw [h.column, h.lineLength, @ahead_cons b v c.before c.before hb]; omega)]
    simp only [TextEditor.forward, ho', hp', hx'] at hforward ⊢
    refine h.moved hforward (text_moved [b] c.before v).symm rfl ?_
    rw [h.lineLength, @column_cons b c.before v (b :: v) hb,
      @ahead_cons b v c.before (b :: c.before) hb]
    omega

/-- The counters behind an inserted key. -/
theorem put_counters (key : UInt8) (hptr : s.filePtr + 1 < 4294967296)
    (hoffset : s.fileOffset + 1 < 4294967296) (hline : s.currentLineLength + 1 < 4294967296)
    (hlength : s.fileLengthBytes + 1 < 4294967296) :
    s.put key = { s with
      mem := (s.put key).mem
      filePtr := s.filePtr + 1
      fileOffset := s.fileOffset + 1
      currentLineLength := s.currentLineLength + 1
      fileLengthLines := (s.put key).fileLengthLines
      fileLengthBytes := s.fileLengthBytes + 1 } :=
  TextEditor.ext rfl (u32_eq hptr) rfl (u32_eq hoffset) rfl rfl (u32_eq hline) rfl (u32_eq hlength)

/-- **A key is inserted into the text.** -/
theorem Edits.put (h : Edits s c) (hshort : c.text.length < 511) {key : UInt8}
    (hnonzero : typedByte key ≠ 0) :
    Buffered (s.put key) (c.insert (typedByte key)) ∧ (s.put key).cursorX = s.cursorX ∧
      (s.put key).currentLineLength = s.currentLineLength + 1 := by
  obtain ⟨w, v⟩ := c
  obtain ⟨hptr, hoffset, hlength, hfits⟩ := h.stands.numbers
  have hroom := h.room
  have hline := h.lineLength
  have hcolumn := column_le ⟨w, v⟩
  have hahead := ahead_le ⟨w, v⟩
  simp only [length_text] at hshort hcolumn hahead
  have hto : u32 (s.fileAddress + s.fileLengthBytes)
      = s.fileAddress + w.reverse.length + v.length := by
    rw [hlength, List.length_reverse, u32_eq (by omega), Nat.add_assoc]
  have hcount : sub32 s.fileLengthBytes s.fileOffset = v.length := by
    rw [hlength, hoffset, sub32_eq (by omega) (by omega), Nat.add_sub_cancel_left]
  have hplace : s.filePtr = s.fileAddress + w.reverse.length := by
    rw [hptr, List.length_reverse]
  have htext : ((Cursor.mk w v).insert (typedByte key)).text
      = w.reverse ++ typedByte key :: v := by
    simp [Cursor.text, Cursor.insert]
  have hmem : (s.put key).mem = Function.update (moveUp s.mem
      (u32 (s.fileAddress + s.fileLengthBytes)) (sub32 s.fileLengthBytes s.fileOffset)) s.filePtr
      (typedByte key) := rfl
  rw [hto, hcount, hplace] at hmem
  have hholds : Holds (s.put key).mem s.fileAddress (w.reverse ++ typedByte key :: v) := by
    rw [hmem]
    exact @Holds.insert s.mem s.fileAddress w.reverse v h.holds hroom (by simpa using hshort) _
  rw [put_counters key (by omega) (by omega) (by omega) (by omega)]
  refine ⟨⟨by rw [htext]; exact hholds, ?_, ?_, hroom, ?_, ?_, ?_⟩, rfl, rfl⟩
  · intro b hb
    rw [htext] at hb
    rcases List.mem_append.mp hb with hb | hb
    · exact h.nonzero b (List.mem_append_left _ hb)
    · rcases List.mem_cons.mp hb with rfl | hb
      · exact hnonzero
      · exact h.nonzero b (List.mem_append_right _ hb)
  · rw [htext, List.length_append, List.length_reverse, List.length_cons]
    omega
  · simp only [hptr, Cursor.insert, List.length_cons]
    omega
  · simp only [hoffset, Cursor.insert, List.length_cons]
  · simp only [hlength, htext, List.length_append, List.length_reverse, List.length_cons]
    omega

/-- A character that is no line feed. -/
theorem Edits.char (h : Edits s c) (hshort : c.text.length < 511) {key : UInt8}
    (hkey : typedByte key ≠ newline) (hnonzero : typedByte key ≠ 0) (fuel : Nat) :
    insertChar fuel key s = some { s.put key with cursorX := u32 ((s.put key).cursorX + 1) } ∧
      Edits { s.put key with cursorX := u32 ((s.put key).cursorX + 1) }
        (c.insert (typedByte key)) := by
  obtain ⟨hput, hx, hline⟩ := h.put hshort hnonzero
  have hcolumn := column_le c
  rw [length_text] at hshort
  refine ⟨if_neg hkey, ⟨⟨hput.holds, hput.nonzero, hput.short, hput.room, hput.ptr, hput.offset,
    hput.length⟩, ?_, ?_⟩⟩
  · show u32 ((s.put key).cursorX + 1) = _
    rw [hx, h.column, u32_eq (by omega)]
    exact (column_cons hkey).symm
  · show (s.put key).currentLineLength = _
    rw [hline, h.lineLength, Cursor.insert, @column_cons _ c.before c.after c.after hkey]
    show c.column + c.ahead + 1 = c.column + 1 + c.ahead
    omega

/-- Forward to the end of the line, which is measured on the way. -/
theorem loop_measure (h : Buffered s ⟨w, v⟩) (hcount : s.currentLineLength = 0) {fuel : Nat}
    (hfuel : v.length ≤ fuel) :
    loop (fun s => s.here ≠ newline ∧ s.here ≠ 0) (fun s => (s.forward 1).longer) fuel s
      = some ((s.forward (Cursor.mk w v).ahead).counted (Cursor.mk w v).ahead) := by
  obtain ⟨u, rest, rfl, hu, hrest⟩ := exists_line v
  have hstart : (s.forward 0).counted 0 = s := by
    rw [h.stands.forward_zero]
    cases s
    simp only at hcount
    simp [TextEditor.counted, hcount, u32]
  have hrun := @loop_steps _ (fun s => s.here ≠ newline ∧ s.here ≠ 0)
    (fun s => (s.forward 1).longer) (fun k => (s.forward k).counted k) u.length fuel
    (fun k hk => ⟨decide_eq_true ?_, ?_⟩) (decide_eq_false ?_)
    (by rw [List.length_append] at hfuel; omega)
  · rwa [hstart, ← @ahead_line u rest w hu hrest] at hrun
  · have hb : u[k]? = some u[k] := List.getElem?_eq_getElem hk
    rw [here_counted, @Stands.ahead _ (u ++ rest) w k u[k] h.stands
      (by rw [List.getElem?_append_left hk, hb])]
    exact ⟨ne_newline_of_getElem hu hb, h.nonzero _ (List.mem_append_right _
      (List.mem_append_left _ (List.getElem_mem hk)))⟩
  · rw [forward_counted, longer_counted, forward_forward]
  · rintro ⟨hline, hzero⟩
    obtain rfl | ⟨rest, rfl⟩ := hrest
    · have hend := h.behind
      rw [List.append_nil] at hend
      exact hzero hend
    · exact hline (@Stands.ahead _ (u ++ newline :: rest) w u.length newline h.stands (by simp))

/-- **Enter.** -/
theorem Edits.enter (h : Edits s c) (hshort : c.text.length < 511) :
    ∃ s', (∀ fuel, 512 ≤ fuel → insertChar fuel enterKey s = some s') ∧
      Edits s' (c.insert newline) := by
  obtain ⟨hput, -, -⟩ := @Edits.put s c h hshort enterKey (by decide)
  have hafter : c.after.length ≤ 512 := by
    rw [length_text] at hshort
    omega
  obtain ⟨s₁, hs₁⟩ : ∃ s₁ : TextEditor, s₁ = { s.put enterKey with
      cursorX := 0
      cursorY := u32 ((s.put enterKey).cursorY + 1)
      currentLineLength := 0 } := ⟨_, rfl⟩
  have hbuffer : Buffered s₁ ⟨newline :: c.before, c.after⟩ := by
    rw [hs₁]
    exact ⟨hput.holds, hput.nonzero, hput.short, hput.room, hput.ptr, hput.offset, hput.length⟩
  have hcount : s₁.currentLineLength = 0 := by rw [hs₁]
  have hx : s₁.cursorX = 0 := by rw [hs₁]
  obtain ⟨n, hn⟩ : ∃ n, n = (Cursor.mk (newline :: c.before) c.after).ahead := ⟨_, rfl⟩
  have hloop := fun fuel (hfuel : 512 ≤ fuel) =>
    @loop_measure _ _ _ hbuffer hcount fuel (by omega)
  rw [← hn] at hloop
  obtain ⟨hptr, hoffset, -, hfits⟩ := hbuffer.stands.numbers
  have hle : n ≤ c.after.length := hn ▸ ahead_le _
  have hlength : ((s₁.forward n).counted n).currentLineLength = n := by
    show u32 (s₁.currentLineLength + n) = n
    rw [hcount, Nat.zero_add, u32_eq (by omega)]
  have hreturn : ∀ p, p + n < 4294967296 → sub32 (u32 (p + n)) n = p := by
    intro p hp
    rw [u32_eq hp, sub32_eq hp (Nat.le_add_left _ _), Nat.add_sub_cancel]
  have hback : ((s₁.forward n).counted n).back n = { s₁ with currentLineLength := n } :=
    TextEditor.ext rfl (hreturn _ (by omega)) rfl (hreturn _ (by omega)) rfl rfl hlength rfl rfl
  refine ⟨{ s₁ with currentLineLength := n }, fun fuel hfuel => ?_, ?_⟩
  · have hrun : insertChar fuel enterKey s = (loop (fun s => s.here ≠ newline ∧ s.here ≠ 0)
        (fun s => (s.forward 1).longer) fuel s₁).bind
          fun s => some (s.back s.currentLineLength) := by
      rw [hs₁]
      unfold insertChar
      simp only [show typedByte enterKey = newline by decide, if_true]
      rfl
    rw [hrun, hloop fuel hfuel]
    show some (((s₁.forward n).counted n).back ((s₁.forward n).counted n).currentLineLength) = _
    rw [hlength, hback]
  · refine ⟨⟨hbuffer.holds, hbuffer.nonzero, hbuffer.short, hbuffer.room, hbuffer.ptr,
      hbuffer.offset, hbuffer.length⟩, ?_, ?_⟩
    · exact hx.trans column_newline.symm
    · show n = (Cursor.mk (newline :: c.before) c.after).column + _
      rw [column_newline, Nat.zero_add]
      exact hn

/-- **The character between `w` and `v` is removed**, with the pointers at its place. -/
theorem Buffered.removed (h : Buffered s c) (hold : c.text = w.reverse ++ b :: v) {s' : TextEditor}
    (hmem : s'.mem = memcpy s.mem (s.fileAddress + w.length) (s.fileAddress + w.length + 1)
      (v.length + 1)) (haddress : s'.fileAddress = s.fileAddress)
    (hptr : s'.filePtr = s.fileAddress + w.length) (hoffset : s'.fileOffset = w.length)
    (hlength : s'.fileLengthBytes = w.length + v.length) : Buffered s' ⟨w, v⟩ := by
  have hshort := h.short
  have hholds := h.holds
  rw [hold] at hholds hshort
  have hremove := hholds.remove h.room hshort
  rw [List.length_reverse] at hremove
  rw [List.length_append, List.length_cons, List.length_reverse] at hshort
  refine ⟨by rw [hmem, haddress]; exact hremove, fun d hd => h.nonzero d ?_, ?_,
    by rw [haddress]; exact h.room, by rw [haddress]; exact hptr, hoffset, ?_⟩
  · rw [hold]
    rcases List.mem_append.mp hd with hd | hd
    · exact List.mem_append_left _ hd
    · exact List.mem_append_right _ (List.mem_cons_of_mem _ hd)
  · rw [length_text]
    show w.length + v.length < 512
    omega
  · rw [length_text, hlength]

/-- Backspace, at the start of a line or inside it. -/
theorem Edits.backspace (h : Edits s c) (hclear : c.column = 0 ∨ c.ahead ≠ 0) :
    Edits (deleteChar backspaceKey s) c.backspace := by
  by_cases hcol : c.column = 0
  · rw [Cursor.backspace, if_pos hcol, deleteChar, if_pos ⟨rfl, by rw [h.column, hcol]⟩]
    exact h
  obtain ⟨b, w, hb, hc⟩ := exists_before hcol
  obtain ⟨d, v, hd, hc'⟩ := exists_after (hclear.resolve_left hcol)
  have hcursor : c = ⟨b :: w, d :: v⟩ := by
    rw [hc] at hc' ⊢
    rw [hc']
  rw [hcursor] at h hcol ⊢
  have hmove : (Cursor.mk (b :: w) (d :: v)).backspace = ⟨w, d :: v⟩ := if_neg hcol
  have hhere := h.stands.here
  have hx := h.column
  have hline := h.lineLength
  have hle := column_le ⟨w, d :: v⟩
  obtain ⟨hptr, hoffset, hlength, hfits⟩ := h.stands.numbers
  rw [@column_cons b w (d :: v) (d :: v) hb] at hx hline
  rw [@ahead_cons d v (b :: w) w hd] at hline
  simp only [List.length_cons] at hptr hoffset hlength hfits hle
  have hx' : sub32 s.cursorX 1 = (Cursor.mk w (d :: v)).column := by
    rw [hx, sub32_eq (by omega) (by omega), Nat.add_sub_cancel]
  have hp' : sub32 s.filePtr 1 = s.fileAddress + w.length := by
    rw [sub32_eq (by omega) (by omega)]
    omega
  have hq' : u32 (s.fileAddress + w.length + 1) = s.fileAddress + w.length + 1 := u32_eq (by omega)
  have ho' : sub32 s.fileOffset 1 = w.length := by
    rw [sub32_eq (by omega) (by omega)]
    omega
  have hcount : sub32 s.fileLengthBytes w.length = (d :: v).length + 1 := by
    rw [sub32_eq (by omega) (by omega), List.length_cons]
    omega
  have hb' : sub32 s.fileLengthBytes 1 = w.length + (d :: v).length := by
    rw [sub32_eq (by omega) (by omega), List.length_cons]
    omega
  have hl' : sub32 s.currentLineLength 1 = s.currentLineLength - 1 :=
    sub32_eq (by have := ahead_le ⟨w, v⟩; simp only at this; omega) (by omega)
  rw [hmove, deleteChar, if_neg (by rintro ⟨-, hzero⟩; omega), if_neg (by rw [hhere]; exact hd),
    if_neg (by rw [hhere]; rintro ⟨hzero, -⟩; exact h.stands.here_nonzero (hhere.trans hzero))]
  simp only [if_true, TextEditor.back, hx', hp', hq', ho', hcount, hb', hl']
  have htext : (Cursor.mk (b :: w) (d :: v)).text = w.reverse ++ b :: d :: v := by
    simp [Cursor.text]
  refine ⟨h.removed htext rfl rfl rfl rfl rfl, rfl, ?_⟩
  show s.currentLineLength - 1 = _
  rw [@ahead_cons d v w w hd]
  omega

/-- Delete, in front of a character or of a line feed. -/
theorem Edits.delete (h : Edits s c) (hclear : c.after ≠ []) :
    Edits (deleteChar delKey s) c.delete := by
  have hkey : delKey ≠ backspaceKey := by decide
  by_cases hahead : c.ahead = 0
  · obtain ⟨w, _ | ⟨b, v⟩⟩ := c
    · exact absurd rfl hclear
    · have hb : b = newline := by_contra fun hb => by simp [@ahead_cons b v w w hb] at hahead
      rw [Cursor.delete, if_pos hahead, deleteChar, if_neg (fun h => hkey h.1),
        if_pos (h.stands.here.trans hb)]
      exact h
  obtain ⟨b, v, hb, hcursor⟩ := exists_after hahead
  obtain ⟨w, hw⟩ : ∃ w, w = c.before := ⟨_, rfl⟩
  rw [← hw] at hcursor
  rw [hcursor] at h hahead ⊢
  have hmove : (Cursor.mk w (b :: v)).delete = ⟨w, v⟩ := if_neg hahead
  have hhere := h.stands.here
  have hline := h.lineLength
  have hle := column_le ⟨w, v⟩
  obtain ⟨hptr, hoffset, hlength, hfits⟩ := h.stands.numbers
  rw [@ahead_cons b v w w hb] at hline
  simp only [List.length_cons] at hlength hfits hle
  have hq' : u32 (s.fileAddress + w.length + 1) = s.fileAddress + w.length + 1 := u32_eq (by omega)
  have hcount : sub32 s.fileLengthBytes w.length = v.length + 1 := by
    rw [sub32_eq (by omega) (by omega)]
    omega
  have hb' : sub32 s.fileLengthBytes 1 = w.length + v.length := by
    rw [sub32_eq (by omega) (by omega)]
    omega
  have hl' : sub32 s.currentLineLength 1 = s.currentLineLength - 1 :=
    sub32_eq (by
      have := ahead_le ⟨w, v⟩
      have : (Cursor.mk w (b :: v)).column = (Cursor.mk w v).column := rfl
      simp only at *
      omega) (by omega)
  rw [hmove, deleteChar, if_neg (fun h => hkey h.1), if_neg (by rw [hhere]; exact hb),
    if_neg (by rw [hhere]; rintro ⟨hzero, -⟩; exact h.stands.here_nonzero (hhere.trans hzero)),
    if_neg hkey]
  simp only [hptr, hoffset, hq', hcount, hb', hl']
  have htext : (Cursor.mk w (b :: v)).text = w.reverse ++ b :: v := rfl
  refine ⟨h.removed htext rfl rfl rfl rfl rfl, h.column, ?_⟩
  show s.currentLineLength - 1 = (Cursor.mk w (b :: v)).column + _
  omega

end

/-! ## 4. Runs -/

/-- **The condition on a key**: it is none of the letters that the keypad's keys share their codes
with, Backspace is not pressed at the end of a line that has characters in front of the cursor, and
Delete not at the end of the file. -/
def Unbroken (c : Cursor) : Typing → Prop
  | .char b _ => b ∉ [delKey, leftArrow, rightArrow, upArrow, downArrow, homeKey, endKey]
  | .backspace => c.column = 0 ∨ c.ahead ≠ 0
  | .delete => c.after ≠ []
  | .enter | .left | .right => True

instance (c : Cursor) : (key : Typing) → Decidable (Unbroken c key)
  | .char b _ => inferInstanceAs
      (Decidable (b ∉ [delKey, leftArrow, rightArrow, upArrow, downArrow, homeKey, endKey]))
  | .backspace => inferInstanceAs (Decidable (c.column = 0 ∨ c.ahead ≠ 0))
  | .delete => inferInstanceAs (Decidable (c.after ≠ []))
  | .enter | .left | .right => isTrue trivial

/-- The text editor and the reference editor, with one key for both. -/
def PressBoth (st : TextEditor × Cursor) (key : Typing) (st' : TextEditor × Cursor) : Prop :=
  Handled st.1 key.code st'.1 ∧ st'.2 = st.2.press key ∧ st'.2.text.length < 512

/-- The new file and the empty text. -/
def start (m : Bytes) (address : Nat) : TextEditor × Cursor := (newFile m address, ⟨[], []⟩)

theorem start_edits (m : Bytes) {address : Nat} (hroom : address + 512 ≤ 4294967296) :
    Edits (newFile m address) ⟨[], []⟩ where
  holds i hi := by
    show blit m address 512 (fun _ => 0) (address + i) = _
    rw [blit_add hi]
    rfl
  nonzero := by simp [Cursor.text]
  short := by simp [Cursor.text]
  room := hroom
  ptr := rfl
  offset := rfl
  length := rfl
  column := rfl
  lineLength := rfl

/-- **One key in both editors.** -/
theorem Edits.press {s : TextEditor} {c : Cursor} (h : Edits s c) {key : Typing}
    (hclear : Unbroken c key) (hshort : (c.press key).text.length < 512) :
    ∃ s', Handled s key.code s' ∧ Edits s' (c.press key) := by
  have hinsert : ∀ b, (c.insert b).text.length = c.text.length + 1 := by
    intro b
    rw [length_text, length_text]
    exact Nat.succ_add c.before.length c.after.length
  cases key with
  | char b hb =>
    have hshort' : c.text.length < 511 := by
      have := hinsert b
      simp only [Cursor.press] at hshort
      omega
    simp only [Unbroken, List.mem_cons, List.not_mem_nil, or_false, not_or] at hclear
    obtain ⟨hdel, hleft, hright, hup, hdown, hhome, hend⟩ := hclear
    have hne : ∀ d : UInt8, d < 0x20 → b ≠ d := by
      rintro d hd rfl
      exact absurd hb.1 (UInt8.not_le.mpr hd)
    have hbyte : typedByte b = b := if_neg (hne enterKey (by decide))
    obtain ⟨hreturn, hnext⟩ := @Edits.char s c h hshort' b
      (by rw [hbyte]; exact hne newline (by decide)) (by rw [hbyte]; exact hne 0 (by decide)) 0
    rw [hbyte] at hnext
    refine ⟨_, ⟨0, fun fuel _ => ?_⟩, hnext⟩
    rw [← hreturn, textEditorKey]
    simp only [Typing.code, hdel, hleft, hright, hup, hdown, hhome, hend,
      hne backspaceKey (by decide), or_self, if_false]
    exact (@Edits.char s c h hshort' b (by rw [hbyte]; exact hne newline (by decide))
      (by rw [hbyte]; exact hne 0 (by decide)) fuel).1.trans hreturn.symm
  | enter =>
    obtain ⟨s', hreturn, hnext⟩ := h.enter (by
      have := hinsert newline
      simp only [Cursor.press] at hshort
      omega)
    exact ⟨s', ⟨512, fun fuel hfuel => hreturn fuel hfuel⟩, hnext⟩
  | backspace => exact ⟨_, ⟨0, fun _ _ => rfl⟩, h.backspace hclear⟩
  | delete => exact ⟨_, ⟨0, fun _ _ => rfl⟩, h.delete hclear⟩
  | left => exact ⟨_, ⟨0, fun _ _ => rfl⟩, h.left⟩
  | right => exact ⟨_, ⟨0, fun _ _ => rfl⟩, h.right⟩

/-- What is written is the text. -/
theorem Edits.saved {s : TextEditor} {c : Cursor} (h : Edits s c) : s.saved = c.text := by
  refine List.ext_getElem
    (by rw [TextEditor.saved, List.length_map, List.length_range, h.length]) ?_
  intro i hi hi'
  simp only [TextEditor.saved, List.getElem_map, List.getElem_range]
  rw [h.holds i (Nat.lt_trans hi' h.short), List.getD_eq_getElem _ _ hi']

/-- What a sequence of keys on a new file leads to, each key meeting `ok`, while the text stays
under 512 bytes. -/
def Typed (ok : Cursor → Typing → Prop) (m : Bytes) (address : Nat) (st : TextEditor × Cursor) :
    Prop :=
  Reach PressBoth (fun st key => ok st.2 key) (start m address) st

/-- **While no key meets one of the three cases, the text editor writes the text of the reference
editor**, and every key is handled. -/
theorem editing_refines (m : Bytes) (address : Nat) (hroom : address + 512 ≤ 4294967296)
    (s : TextEditor) (c : Cursor) (h : Typed Unbroken m address (s, c)) :
    s.saved = c.text ∧ ∀ key, Unbroken c key → (c.press key).text.length < 512 →
      ∃ s', Handled s key.code s' := by
  have hedits : Edits s c := by
    refine @Reach.invariant _ _ _ _ _ (fun st => Edits st.1 st.2) (start_edits m hroom) ?_ _ h
    rintro ⟨s, c⟩ key ⟨s', c'⟩ hedits hok ⟨hhandled, rfl, hshort⟩
    obtain ⟨s'', hhandled', hnext⟩ := hedits.press hok hshort
    obtain rfl := hhandled.unique hhandled'
    exact hnext
  refine ⟨hedits.saved, fun key hok hshort => ?_⟩
  obtain ⟨s', hhandled, -⟩ := hedits.press hok hshort
  exact ⟨s', hhandled⟩

/-- Keys that can follow each other from `c` on. -/
def Pressable : Cursor → List Typing → Prop
  | _, [] => True
  | c, key :: keys =>
    Unbroken c key ∧ (c.press key).text.length < 512 ∧ Pressable (c.press key) keys

instance : (c : Cursor) → (keys : List Typing) → Decidable (Pressable c keys)
  | _, [] => isTrue trivial
  | c, key :: keys =>
    have := instDecidablePressable (c.press key) keys
    inferInstanceAs (Decidable (_ ∧ _ ∧ _))

/-- Such keys are all handled. -/
theorem Edits.keys {m : Bytes} {address : Nat} : ∀ (keys : List Typing) {s : TextEditor}
    {c : Cursor}, Edits s c → Typed Unbroken m address (s, c) → Pressable c keys →
      ∃ s', Typed Unbroken m address (s', keys.foldl Cursor.press c) := by
  intro keys
  induction keys with
  | nil => exact fun _ htyped _ => ⟨_, htyped⟩
  | cons key keys ih =>
    intro s c h htyped hkeys
    obtain ⟨hclear, hshort, hrest⟩ := hkeys
    obtain ⟨s', hhandled, hnext⟩ := h.press hclear hshort
    exact ih hnext (htyped.tail hclear ⟨hhandled, rfl, hshort⟩) hrest

/-- `bc`, Enter, `d`, Left, `ef`, Backspace and Delete. -/
def someKeys : List Typing :=
  [.char 0x62 (by decide), .char 0x63 (by decide), .enter, .char 0x64 (by decide), .left,
    .char 0x65 (by decide), .char 0x66 (by decide), .backspace, .delete]

/-- The theorem for these keys. -/
theorem someKeys_saved : ∃ s, Typed Unbroken (fun _ => 0) 0x1000
      (s, someKeys.foldl Cursor.press ⟨[], []⟩) ∧ s.saved = [0x62, 0x63, newline, 0x65] := by
  have hkeys : Pressable ⟨[], []⟩ someKeys := by decide
  obtain ⟨s, htyped⟩ := (start_edits (fun _ => 0) (by decide : 0x1000 + 512 ≤ 4294967296)).keys
    someKeys .refl hkeys
  exact ⟨s, htyped, (editing_refines (fun _ => 0) 0x1000 (by decide) s _ htyped).1⟩

/-- **A capital `K` is not inserted**: it is the code of the left arrow. -/
theorem editing_diverges : ¬ ∀ (m : Bytes) (address : Nat), address + 512 ≤ 4294967296 →
    ∀ (s : TextEditor) (c : Cursor), Typed (fun _ _ => True) m address (s, c) →
      s.saved = c.text := by
  intro hall
  have htyped : Typed (fun _ _ => True) (fun _ => 0) 0x1000
      (newFile (fun _ => 0) 0x1000, ⟨[0x4b], []⟩) :=
    .tail (a := .char 0x4b (by decide)) .refl trivial ⟨⟨0, fun _ _ => rfl⟩, rfl, by decide⟩
  have hsaved := hall (fun _ => 0) 0x1000 (by decide) _ _ htyped
  exact absurd hsaved (by simp [TextEditor.saved, newFile, Cursor.text])

end AmateurOs.Editor
