/-
# Keys through the file `stdin`

A model of `keyboard_irq1_handler` (`include/interrupts/pic.h`) and of `get_key`
(`include/keyboard/keyboard.h`).  Both work on descriptor 0 with `read`, `write` and `seek`, and
share its offset: the handler runs between any two system calls of `get_key`.

* A machine is written over the operations of a file (`run`).  Over a kernel they are the system
  calls on descriptor 0; over a byte array with a cursor they are those of `Lib.ByteFile`.
  `Stands.irq1` and `Stands.turn` carry a step from one to the other, as long as records stay
  inside the page of the file.
* `bool` is an enumeration of `stdbool.h`, of four bytes, so a `key_info_t` has twelve: the key,
  three bytes of padding, `shift` and `ctrl`.
* A handler runs as one step, and a turn of `get_key` as one system call with the test behind it.
  `written`, `delivered` and `returned` record what happened; the code does not have them.
-/
import AmateurOs.Syscalls.Cursor
import AmateurOs.Terminal.Stdio

namespace AmateurOs.Keyboard

open AmateurOs.Lib AmateurOs.Syscalls
open AmateurOs.Fs (cstr)
open AmateurOs.Terminal (text char)

/-! ## 1. Records -/

/-- `sizeof(key_info_t)`. -/
def keyInfoSize : Nat := 12

/-- `key_info_t`. -/
structure KeyInfo where
  key : UInt8
  shift : Bool
  ctrl : Bool
deriving DecidableEq

/-- The four bytes of a `bool`. -/
def boolBytes (b : Bool) : List UInt8 := [if b then 1 else 0, 0, 0, 0]

/-- The bytes of a record. -/
def KeyInfo.bytes (k : KeyInfo) : List UInt8 :=
  [k.key, 0, 0, 0] ++ boolBytes k.shift ++ boolBytes k.ctrl

/-- The record that bytes stand for. -/
def KeyInfo.ofBytes (bs : List UInt8) : KeyInfo where
  key := bs.getD 0 0
  shift := ((bs.drop 4).take 4).any (· != 0)
  ctrl := ((bs.drop 8).take 4).any (· != 0)

/-- `null_key`. -/
def nullKey : KeyInfo := ⟨0, false, false⟩

@[simp] theorem length_bytes (k : KeyInfo) : k.bytes.length = keyInfoSize := rfl

theorem ofBytes_bytes (k : KeyInfo) : KeyInfo.ofBytes k.bytes = k := by
  obtain ⟨key, shift, ctrl⟩ := k
  cases shift <;> cases ctrl <;> rfl

/-! ## 2. Scan codes -/

/-- The static variables of the handler. -/
structure Handler where
  e0 : Bool
  keyInfo : KeyInfo
  rewindFile : Bool

/-- `scancode_to_ascii`. -/
def scancodeToAscii : List UInt8 :=
  [0, 0x1B] ++ text "1234567890-=" ++ [0x08, 0] ++ text "qwertyuiop[]" ++ [0x0D, 0x1D] ++
    text "asdfghjkl;'\x60" ++ [0] ++ text "\\" ++ text "zxcvbnm,./" ++ [0, 0, 0] ++ text " "

/-- `num_row_shifts`. -/
def numRowShifts : List UInt8 := text ")!@#$%^&*("

/-- A key with shift. -/
def shiftedKey (key : UInt8) : UInt8 :=
  if char 'a' ≤ key ∧ key ≤ char 'z' then key - 0x20
  else if char '0' ≤ key ∧ key ≤ char '9' then numRowShifts.getD (key.toNat - 0x30) 0
  else if key = char '=' then char '+'
  else if key = char '\\' then char '|'
  else if key = char '\x60' then char '~'
  else if key = char '[' then char '\x7b'
  else if key = char ']' then char '\x7d'
  else if key = char '\'' then char '\"'
  else if key = char ';' then char ':'
  else if key = char ',' then char '<'
  else if key = char '.' then char '>'
  else if key = char '/' then char '?'
  else if key = char '-' then char '_'
  else key

/-- The key of a scan code.  `behind` are the bytes behind the table, which has no entry for the
highest codes. -/
def translate (behind : Bytes) (h : Handler) (code : UInt8) : UInt8 :=
  if h.e0 then code
  else
    let key := cstr scancodeToAscii behind code.toNat
    if h.keyInfo.shift then shiftedKey key else key

/-- The handler up to the file: its static variables, and the record it writes, if any. -/
def takeScancode (behind : Bytes) (h : Handler) (code : UInt8) : Handler × Option KeyInfo :=
  if code = 0 then (h, none)
  else if code = 0x2A ∨ code = 0x36 then
    ({ h with keyInfo := { h.keyInfo with shift := true } }, none)
  else if code = 0xAA ∨ code = 0xB6 then
    ({ h with keyInfo := { h.keyInfo with shift := false } }, none)
  else if code = 0x1D then ({ h with keyInfo := { h.keyInfo with ctrl := true } }, none)
  else if code = 0x9D then ({ h with keyInfo := { h.keyInfo with ctrl := false } }, none)
  else if code = 0xE0 then ({ h with e0 := true }, none)
  else if code &&& 0x80 = 0 then
    let keyInfo := { h.keyInfo with key := translate behind h code }
    ({ h with keyInfo := keyInfo, e0 := false }, some keyInfo)
  else ({ h with e0 := false }, none)

/-! ## 3. The machine -/

/-- Where `get_key` stands: outside of it, or in front of one of its system calls.  The two reads
are one: both are followed by the test of the loop. -/
inductive Reader
  | idle
  | reading
  | rewinding
  | sleeping
  | found
  | erasing
deriving DecidableEq

/-- A file, the handler, and `get_key` with the bytes of its `key_info`. -/
structure Machine (κ : Type) where
  file : κ
  handler : Handler
  reader : Reader
  keyInfo : List UInt8
  /-- The offsets at which the handler wrote its records. -/
  written : List Int
  /-- The records that the handler wrote. -/
  delivered : List KeyInfo
  /-- The results of `get_key`. -/
  returned : List KeyInfo

section Machine

variable {κ : Type} (run : κ → FileOp → Output × κ)

/-- The part of the handler that writes a record. -/
def deliver (ext : Ext) (m : Machine κ) (record : KeyInfo) : Machine κ :=
  let file := if m.handler.rewindFile then (run m.file (.seek 0 .seekSet)).2 else m.file
  let start := run file (.seek 0 .seekCur)
  let file := (run start.2 (.write ext record.bytes)).2
  let told := run file (.seek 0 .seekCur)
  { m with
    file := told.2
    handler := { m.handler with
      rewindFile := m.handler.rewindFile || told.1.1 == ((pageSize / keyInfoSize : Nat) : Int) }
    written := m.written ++ [start.1.1]
    delivered := m.delivered ++ [record] }

/-- `keyboard_irq1_handler`. -/
def irq1 (behind : Bytes) (ext : Ext) (m : Machine κ) (code : UInt8) : Machine κ :=
  let taken := takeScancode behind m.handler code
  let m := { m with handler := taken.1 }
  match taken.2 with
  | none => m
  | some record => deliver run ext m record

variable {behind : Bytes} {ext : Ext} {m : Machine κ} {code : UInt8} {h : Handler} in
theorem irq1_none (htaken : takeScancode behind m.handler code = (h, none)) :
    irq1 run behind ext m code = { m with handler := h } := by
  unfold irq1
  rw [htaken]

variable {behind : Bytes} {ext : Ext} {m : Machine κ} {code : UInt8} {h : Handler} in
theorem irq1_some {record : KeyInfo}
    (htaken : takeScancode behind m.handler code = (h, some record)) :
    irq1 run behind ext m code = deliver run ext { m with handler := h } record := by
  unfold irq1
  rw [htaken]

/-- `get_key` up to its next system call. -/
def turn (ext : Ext) (m : Machine κ) : Machine κ :=
  match m.reader with
  | .idle => { m with reader := .reading, keyInfo := nullKey.bytes }
  | .reading =>
    let read := run m.file (.read keyInfoSize)
    let keyInfo := read.1.2 ++ m.keyInfo.drop read.1.2.length
    { m with
      file := read.2
      keyInfo := keyInfo
      reader := if keyInfo.getD 0 0 = 0 then .rewinding else .found }
  | .rewinding =>
    { m with file := (run m.file (.seek (-keyInfoSize) .seekCur)).2, reader := .sleeping }
  | .sleeping => { m with reader := .reading }
  | .found =>
    { m with file := (run m.file (.seek (-keyInfoSize) .seekCur)).2, reader := .erasing }
  | .erasing =>
    { m with
      file := (run m.file (.write ext nullKey.bytes)).2
      reader := .idle
      returned := m.returned ++ [KeyInfo.ofBytes m.keyInfo] }

/-- What can happen: a scan code, or a turn of `get_key`. -/
inductive Event
  | irq (ext : Ext) (code : UInt8)
  | turn (ext : Ext)

/-- One step. -/
def next (behind : Bytes) (m : Machine κ) : Event → Machine κ
  | .irq ext code => irq1 run behind ext m code
  | .turn ext => turn run ext m

end Machine

/-- The system calls on descriptor 0. -/
def stdinCall (k : Kernel) (op : FileOp) : Output × Kernel := runOp k 0 op

/-- A step of the kernel. -/
def Step (behind : Bytes) (m : Machine Kernel) (e : Event) (m' : Machine Kernel) : Prop :=
  m' = next stdinCall behind m e

/-- The offset and the size of the file. -/
def Machine.offset (m : Machine Kernel) : Nat := (m.file.openFileTable 0).offset

def Machine.size (m : Machine Kernel) : Nat := fileSize m.file 0

/-- **`stdin` as `open` leaves it**: one page, the offset at its start, and no key in it. -/
structure Fresh (m : Machine Kernel) : Prop where
  opened : ReadWrite m.file 0
  page : (m.file.openFileTable 0).pagesAllocated = 1
  start : m.offset = 0
  whole : m.size % keyInfoSize = 0
  empty : ∀ j < m.size, j % keyInfoSize = 0 →
    m.file.mem ((m.file.openFileTable 0).address + j) = 0
  idle : m.reader = .idle
  forward : m.handler.rewindFile = false
  history : m.written = [] ∧ m.delivered = [] ∧ m.returned = []

/-! ## 4. The byte array -/

/-- The same machine with another file. -/
def Machine.withFile {κ κ' : Type} (m : Machine κ) (file : κ') : Machine κ' :=
  ⟨file, m.handler, m.reader, m.keyInfo, m.written, m.delivered, m.returned⟩

/-- **The byte array stands for the file** of descriptor 0, of one page. -/
structure Stands (m : Machine Kernel) (a : Machine ByteFile) : Prop where
  file : Represents m.file 0 a.file
  page : (m.file.openFileTable 0).pagesAllocated = 1
  rest : a = m.withFile a.file

/-- The file holds whole records, up to the end of the page, and the offset is at one of them or
at its end; the handler does not rewind. -/
structure Aligned (a : Machine ByteFile) : Prop where
  cursor : a.file.cursor % keyInfoSize = 0
  whole : a.file.data.length % keyInfoSize = 0
  inside : a.file.cursor ≤ a.file.data.length
  page : a.file.data.length ≤ pageSize
  forward : a.handler.rewindFile = false

/-- One call of the kernel is one of the byte array. -/
theorem call_represents {k : Kernel} {f : ByteFile} (h : Represents k 0 f)
    (hpage : (k.openFileTable 0).pagesAllocated = 1) {op : FileOp} (hin : InRange k 0 op)
    (hinside : f.cursor ≤ f.data.length) :
    (stdinCall k op).1 = (runFile f op).1 ∧ Represents (stdinCall k op).2 0 (runFile f op).2 ∧
      ((stdinCall k op).2.openFileTable 0).pagesAllocated = 1 := by
  have hle : (k.openFileTable 0).offset ≤ fileSize k 0 := by
    rw [← h.cursor, ← h.length]
    exact hinside
  have hok : CursorOk k 0 op := by
    cases op with
    | read len => exact hle
    | write ext bytes => exact fun j h1 h2 => absurd (Nat.lt_of_lt_of_le h2 hle) (by omega)
    | seek delta whence => exact trivial
  obtain ⟨hresult, hnext⟩ := runOp_represents h hin hok
  refine ⟨hresult, hnext, ?_⟩
  rw [← hpage]
  exact runOp_pagesAllocated h.ready hin

theorem seekFile_back (f : ByteFile) :
    (runFile f (.seek (-keyInfoSize) .seekCur)).2 =
      { f with cursor := f.cursor - keyInfoSize } := by
  have hback : (max 0 ((f.cursor : Int) + -(keyInfoSize : Nat))).toNat = f.cursor - keyInfoSize := by
    unfold keyInfoSize
    omega
  exact congrArg (fun c => ({ f with cursor := c } : ByteFile)) hback

theorem seekFile_here (f : ByteFile) :
    runFile f (.seek 0 .seekCur) = (((f.cursor : Int), []), f) := by
  have hhere : max 0 ((f.cursor : Int) + 0) = f.cursor := by omega
  unfold runFile seekFile
  simp only [hhere, Int.toNat_natCast]

/-- A read at a record: the record, or nothing at the end. -/
theorem Aligned.read {a : Machine ByteFile} (h : Aligned a) :
    (a.file.cursor = a.file.data.length ∧ a.file.readBytes keyInfoSize = [] ∧
      a.file.afterRead keyInfoSize = a.file) ∨
    (a.file.cursor + keyInfoSize ≤ a.file.data.length ∧
      (a.file.readBytes keyInfoSize).length = keyInfoSize ∧
      a.file.afterRead keyInfoSize = { a.file with cursor := a.file.cursor + keyInfoSize }) := by
  obtain ⟨hcursor, hwhole, hinside, -, -⟩ := h
  have hlen := a.file.length_read keyInfoSize
  unfold keyInfoSize at *
  rcases Nat.eq_or_lt_of_le hinside with hend | hlt
  · have hnone : a.file.readBytes 12 = [] := by
      apply List.eq_nil_of_length_eq_zero
      omega
    refine Or.inl ⟨hend, hnone, ?_⟩
    unfold ByteFile.afterRead
    rw [hnone]
    rfl
  · have hfull : (a.file.readBytes 12).length = 12 := by omega
    refine Or.inr ⟨by omega, hfull, ?_⟩
    unfold ByteFile.afterRead
    rw [hfull]

/-- The step writes a record: a key, or the null record of `get_key`. -/
def Writes {κ : Type} (behind : Bytes) (m : Machine κ) : Event → Prop
  | .irq _ code => (takeScancode behind m.handler code).2 ≠ none
  | .turn _ => m.reader = .erasing

/-- A record, if the step writes one, fits in the page. -/
def Room (behind : Bytes) (a : Machine ByteFile) (e : Event) : Prop :=
  Writes behind a e → a.file.cursor + keyInfoSize ≤ pageSize

section Steps

variable {behind : Bytes} {m : Machine Kernel} {a : Machine ByteFile}

/-- **A record written**: the wrap test compares the offset with 341, and never holds. -/
theorem Aligned.deliver (h : Aligned a) (ext : Ext) (record : KeyInfo) :
    deliver runFile ext a record =
      { a with
        file := a.file.write record.bytes
        written := a.written ++ [(a.file.cursor : Int)]
        delivered := a.delivered ++ [record] } := by
  have hcursor := h.cursor
  have hnot : ((a.file.write record.bytes).cursor : Int) ≠ ((pageSize / keyInfoSize : Nat) : Int) := by
    have hmoved : (a.file.write record.bytes).cursor = a.file.cursor + keyInfoSize := rfl
    rw [hmoved]
    unfold keyInfoSize pageSize at *
    omega
  have hwrite : (runFile a.file (.write ext record.bytes)).2 = a.file.write record.bytes := rfl
  unfold Keyboard.deliver
  simp only [h.forward, Bool.false_eq_true, if_false, seekFile_here, hwrite,
    beq_eq_false_iff_ne.mpr hnot, Bool.or_false]
  rw [← h.forward]

/-- **The byte array after a write** is aligned again. -/
theorem Aligned.write {a' : Machine ByteFile} (h : Aligned a) (record : KeyInfo)
    (hroom : a.file.cursor + keyInfoSize ≤ pageSize) (hfile : a'.file = a.file.write record.bytes)
    (hforward : a'.handler.rewindFile = false) : Aligned a' := by
  have hlen := a.file.length_write record.bytes
  have hcursor : (a.file.write record.bytes).cursor = a.file.cursor + keyInfoSize := rfl
  rw [length_bytes] at hlen
  obtain ⟨h1, h2, h3, h4, -⟩ := h
  rw [← hfile] at hlen hcursor
  refine ⟨?_, ?_, ?_, ?_, hforward⟩ <;> unfold keyInfoSize pageSize at * <;> omega

theorem takeScancode_rewindFile (h : Handler) (code : UInt8) :
    (takeScancode behind h code).1.rewindFile = h.rewindFile := by
  unfold takeScancode
  split_ifs <;> rfl

theorem Aligned.handled (h : Aligned a) {code : UInt8} {handler : Handler}
    {record : Option KeyInfo} (htaken : takeScancode behind a.handler code = (handler, record)) :
    Aligned { a with handler := handler } := by
  refine ⟨h.cursor, h.whole, h.inside, h.page, ?_⟩
  have := @takeScancode_rewindFile behind a.handler code
  rw [htaken] at this
  exact this.trans h.forward

/-- **A turn of `get_key`** keeps the byte array aligned. -/
theorem Aligned.turn (h : Aligned a) {ext : Ext} (hroom : Room behind a (.turn ext)) :
    Aligned (turn runFile ext a) := by
  obtain ⟨h1, h2, h3, h4, h5⟩ := id h
  unfold Keyboard.turn
  cases hreader : a.reader with
  | idle => exact ⟨h1, h2, h3, h4, h5⟩
  | reading =>
    have hread : (runFile a.file (.read keyInfoSize)).2 = a.file.afterRead keyInfoSize := rfl
    simp only [hread]
    rcases h.read with ⟨-, -, hafter⟩ | ⟨hle, -, hafter⟩
    · rw [hafter]
      exact ⟨h1, h2, h3, h4, h5⟩
    · rw [hafter]
      exact ⟨by simpa using h1, h2, hle, h4, h5⟩
  | rewinding =>
    simp only [seekFile_back]
    unfold keyInfoSize at *
    exact ⟨by simp only; unfold keyInfoSize; omega, h2, by simp only; omega, h4, h5⟩
  | sleeping => exact ⟨h1, h2, h3, h4, h5⟩
  | found =>
    simp only [seekFile_back]
    unfold keyInfoSize at *
    exact ⟨by simp only; unfold keyInfoSize; omega, h2, by simp only; omega, h4, h5⟩
  | erasing => exact h.write nullKey (hroom hreader) rfl h5

/-- **A scan code** keeps the byte array aligned. -/
theorem Aligned.irq1 (h : Aligned a) {ext : Ext} {code : UInt8}
    (hroom : Room behind a (.irq ext code)) : Aligned (irq1 runFile behind ext a code) := by
  rcases htaken : takeScancode behind a.handler code with ⟨handler, - | record⟩
  · rw [irq1_none _ htaken]
    exact h.handled htaken
  · rw [irq1_some _ htaken, (h.handled htaken).deliver]
    refine (h.handled htaken).write record (hroom ?_) rfl (h.handled htaken).forward
    show (takeScancode behind a.handler code).2 ≠ none
    rw [htaken]
    simp

theorem Aligned.next (h : Aligned a) {e : Event} (hroom : Room behind a e) :
    Aligned (next runFile behind a e) := by
  cases e with
  | irq ext code => exact h.irq1 hroom
  | turn ext => exact h.turn hroom

/-- **A call that both machines make.** -/
theorem Stands.call (hs : Stands m a) (ha : Aligned a) {op : FileOp}
    (hin : InRange m.file 0 op) :
    (stdinCall m.file op).1 = (runFile a.file op).1 ∧
      Stands { m with file := (stdinCall m.file op).2 }
        { a with file := (runFile a.file op).2 } := by
  obtain ⟨hresult, hnext, hpage⟩ := call_represents hs.file hs.page hin ha.inside
  refine ⟨hresult, hnext, hpage, ?_⟩
  rw [hs.rest]
  rfl

theorem Stands.inRange_read (hs : Stands m a) (ha : Aligned a) :
    InRange m.file 0 (.read keyInfoSize) := by
  have hcursor := hs.file.cursor
  have h3 := ha.inside
  have h4 := ha.page
  show _ + keyInfoSize < _
  unfold keyInfoSize pageSize at *
  omega

theorem Stands.inRange_seek (hs : Stands m a) (ha : Aligned a) {delta : Int}
    (hlow : -4096 ≤ delta) (hhigh : delta ≤ 0) : InRange m.file 0 (.seek delta .seekCur) := by
  have hcursor := hs.file.cursor
  have h3 := ha.inside
  have h4 := ha.page
  have hpage := hs.page
  show -2147483648 ≤ _ ∧ _ < 2147483648 ∧ _ ≤ _
  rw [hpage]
  unfold seekTarget pageSize at *
  simp only
  omega

theorem Stands.inRange_write (hs : Stands m a) (ext : Ext) (record : KeyInfo)
    (hroom : a.file.cursor + keyInfoSize ≤ pageSize) :
    InRange m.file 0 (.write ext record.bytes) := by
  have hcursor := hs.file.cursor
  show _ + record.bytes.length < _ ∧ _ + record.bytes.length ≤ _
  rw [hs.page, length_bytes]
  unfold pageSize at *
  omega

/-- **A record written.** -/
theorem Stands.deliver (hs : Stands m a) (ha : Aligned a) {ext : Ext} {record : KeyInfo}
    (hroom : a.file.cursor + keyInfoSize ≤ pageSize) :
    Stands (deliver stdinCall ext m record) (deliver runFile ext a record) := by
  have hforward : m.handler.rewindFile = false := by
    have := ha.forward
    rw [hs.rest] at this
    exact this
  -- the three calls, in both machines
  obtain ⟨htold, hs₁⟩ := hs.call ha (hs.inRange_seek ha (by decide) (Int.le_refl 0))
  rw [seekFile_here] at htold hs₁
  obtain ⟨-, hs₂⟩ := hs₁.call ha (hs₁.inRange_write ext record hroom)
  have ha₂ : Aligned { a with file := (runFile a.file (.write ext record.bytes)).2 } :=
    ha.write record hroom rfl ha.forward
  obtain ⟨htold', hs₃⟩ := hs₂.call ha₂ (hs₂.inRange_seek ha₂ (by decide) (Int.le_refl 0))
  unfold Keyboard.deliver
  rw [hforward, ha.forward]
  simp only [Bool.false_eq_true, if_false, seekFile_here, htold, htold']
  refine ⟨hs₃.file, hs₃.page, ?_⟩
  rw [hs.rest]
  rfl

/-- **A scan code** in both machines. -/
theorem Stands.irq1 (hs : Stands m a) (ha : Aligned a) {ext : Ext} {code : UInt8}
    (hroom : Room behind a (.irq ext code)) :
    Stands (irq1 stdinCall behind ext m code) (irq1 runFile behind ext a code) := by
  have hhandler : a.handler = m.handler := by rw [hs.rest]; rfl
  rcases htaken : takeScancode behind a.handler code with ⟨handler, - | record⟩
  · rw [irq1_none _ htaken, irq1_none _ (hhandler ▸ htaken)]
    exact ⟨hs.file, hs.page, by rw [hs.rest]; rfl⟩
  · rw [irq1_some _ htaken, irq1_some _ (hhandler ▸ htaken)]
    have hs' : Stands { m with handler := handler } { a with handler := handler } :=
      ⟨hs.file, hs.page, by rw [hs.rest]; rfl⟩
    refine hs'.deliver (ha.handled htaken) (hroom ?_)
    show (takeScancode behind a.handler code).2 ≠ none
    rw [htaken]
    simp

/-- **A turn of `get_key`** in both machines. -/
theorem Stands.turn (hs : Stands m a) (ha : Aligned a) {ext : Ext}
    (hroom : Room behind a (.turn ext)) :
    Stands (turn stdinCall ext m) (turn runFile ext a) := by
  have hreader : a.reader = m.reader := by rw [hs.rest]; rfl
  have hkeyInfo : a.keyInfo = m.keyInfo := by rw [hs.rest]; rfl
  have hback : (-4096 : Int) ≤ -keyInfoSize ∧ (-keyInfoSize : Int) ≤ 0 := by decide
  unfold Keyboard.turn
  rw [hreader]
  cases hm : m.reader with
  | idle => exact ⟨hs.file, hs.page, by rw [hs.rest]; rfl⟩
  | reading =>
    obtain ⟨hread, hs'⟩ := hs.call ha (hs.inRange_read ha)
    simp only [hread, hkeyInfo]
    exact ⟨hs'.file, hs'.page, by rw [hs.rest]; rfl⟩
  | rewinding =>
    obtain ⟨-, hs'⟩ := hs.call ha (hs.inRange_seek ha hback.1 hback.2)
    exact ⟨hs'.file, hs'.page, by rw [hs.rest]; rfl⟩
  | sleeping => exact ⟨hs.file, hs.page, by rw [hs.rest]; rfl⟩
  | found =>
    obtain ⟨-, hs'⟩ := hs.call ha (hs.inRange_seek ha hback.1 hback.2)
    exact ⟨hs'.file, hs'.page, by rw [hs.rest]; rfl⟩
  | erasing =>
    have hfits := hroom (hreader.trans hm)
    obtain ⟨-, hs'⟩ := hs.call ha (hs.inRange_write ext nullKey hfits)
    exact ⟨hs'.file, hs'.page, by rw [hs.rest]; rfl⟩

/-- **A step of the kernel is a step on the byte array**, as long as records fit in the page. -/
theorem Stands.next (hs : Stands m a) (ha : Aligned a) {e : Event} (hroom : Room behind a e) :
    Stands (next stdinCall behind m e) (next runFile behind a e) := by
  cases e with
  | irq ext code => exact hs.irq1 ha hroom
  | turn ext => exact hs.turn ha hroom

/-- The byte array of a fresh file. -/
theorem Fresh.stands (h : Fresh m) :
    Stands m (m.withFile (contents m.file 0)) ∧ Aligned (m.withFile (contents m.file 0)) := by
  have hlength : (contents m.file 0).data.length = m.size := (represents_contents h.opened).length
  have hsize := h.opened.size
  rw [h.page] at hsize
  refine ⟨⟨represents_contents h.opened, h.page, rfl⟩, ?_, ?_, ?_, ?_, h.forward⟩
  · exact (congrArg (· % keyInfoSize) h.start).trans rfl
  · exact (congrArg (· % keyInfoSize) hlength).trans h.whole
  · exact (Nat.le_of_eq h.start).trans (Nat.zero_le _)
  · exact (Nat.le_of_eq hlength).trans (hsize.trans (Nat.le_of_eq (Nat.one_mul _)))

end Steps

/-- An empty file. -/
def emptyFile : Machine ByteFile := ⟨⟨[], 0⟩, ⟨false, nullKey, false⟩, .idle, [], [], [], []⟩

/-- There is a fresh file, an empty one. -/
theorem exists_fresh : ∃ m : Machine Kernel, Fresh m ∧ Stands m emptyFile ∧ Aligned emptyFile := by
  obtain ⟨k, hopened, hsize, hoffset, hpages⟩ := open_readWrite
  let m : Machine Kernel := ⟨k, ⟨false, nullKey, false⟩, .idle, [], [], [], []⟩
  have hnone : m.size = 0 := hsize
  have hfresh : Fresh m := ⟨hopened, hpages, hoffset, by rw [hnone]; rfl,
    fun j hj => absurd (hnone ▸ hj) (Nat.not_lt_zero j), rfl, rfl, rfl, rfl, rfl⟩
  have hempty : m.withFile (contents m.file 0) = emptyFile := by
    unfold contents
    rw [hsize, hoffset]
    rfl
  exact ⟨m, hfresh, hempty ▸ hfresh.stands⟩

end AmateurOs.Keyboard
