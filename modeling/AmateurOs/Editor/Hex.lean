/-
# The hex editor

`hex_editor` of `pgms/editor.c`, without what it prints.  A digit that is typed is made upper case,
made a number, and put into `hex_byte`; every second digit makes a byte of the file.

`toupper` of `C/ctype.h` adds 0x20 to a lower case letter instead of taking it away.  The number of
`'a'` is then 0x4A, and so on: bit 6 is set.  Of a first digit that bit is shifted out, from a second
digit it gets into the byte, where it does no harm if the first digit has it: `hexTyped_iff`.
-/
import AmateurOs.Editor.Keys

namespace AmateurOs.Editor

open AmateurOs.Lib

/-! ## 1. Characters -/

/-- `isxdigit`. -/
def isxdigit (c : UInt8) : Bool :=
  (0x30 ≤ c && c ≤ 0x39) || (0x41 ≤ c && c ≤ 0x46) || (0x61 ≤ c && c ≤ 0x66)

/-- `islower`, which knows the letters of hexadecimal numbers only. -/
def islower (c : UInt8) : Bool := 0x61 ≤ c && c ≤ 0x66

/-- `toupper`. -/
def toupper (c : UInt8) : UInt8 := if islower c then c + 0x20 else c

/-- The number of a character that `toupper` has returned. -/
def hexNumber (key : UInt8) : UInt8 := if key > 0x39 then key - 0x37 else key - 0x30

/-! ## 2. The editor -/

/-- The file's buffer and the variables of the hex editor. -/
structure HexEditor where
  mem : Bytes
  filePtr : Nat
  fileAddress : Nat
  fileOffset : Nat
  editorFilesize : Nat
  cursorX : Nat
  cursorY : Nat
  hexCount : UInt8
  hexByte : UInt8

def runInput : UInt8 := 0x24
def endPgm : UInt8 := 0x3f
def savePgm : UInt8 := 0x53

/-- `file_ptr -= n; file_offset -= n;`. -/
def HexEditor.back (s : HexEditor) (n : Nat) : HexEditor :=
  { s with filePtr := sub32 s.filePtr n, fileOffset := sub32 s.fileOffset n }

/-- `file_ptr += n; file_offset += n;`. -/
def HexEditor.forward (s : HexEditor) (n : Nat) : HexEditor :=
  { s with filePtr := u32 (s.filePtr + n), fileOffset := u32 (s.fileOffset + n) }

/-- `*file_ptr = b`. -/
def HexEditor.put (s : HexEditor) (b : UInt8) : HexEditor :=
  { s with mem := Function.update s.mem s.filePtr b }

/-- The end of a turn, for a digit. -/
def typeDigit (key : UInt8) (s : HexEditor) : HexEditor :=
  let digit := hexNumber (toupper key)
  if s.hexCount + 1 = 2 then
    let byte := (s.hexByte <<< 4) ||| digit
    { (s.put byte).forward 1 with
      hexByte := byte
      editorFilesize := u32 (s.editorFilesize + 1)
      hexCount := 0 }
  else { s with hexByte := digit, hexCount := s.hexCount + 1 }

/-- What a turn of the loop leads to: the next one, the program that was typed in (with the far
return put behind it), `save_hex_program`, or the end of `hex_editor`. -/
inductive HexTurn where
  | next (s : HexEditor)
  | run (s : HexEditor)
  | save (s : HexEditor)
  | leave

/-- One turn of the loop of `hex_editor`. -/
def hexEditorKey (yResolution : Nat) (key : UInt8) (s : HexEditor) : HexTurn :=
  if key = runInput then
    .run { s with mem := Function.update s.mem (u32 (s.fileAddress + s.editorFilesize)) 0xCB }
  else if key = endPgm then .leave
  else if key = savePgm then .save s
  else if key = backspaceKey then
    -- From column 3 or 4 the cursor goes below 0.
    if s.cursorX ≥ 3 then .next ({ s.put 0 with cursorX := sub32 s.cursorX 5 }.back 1) else .next s
  else if key = delKey then .next { s.put 0 with cursorX := sub32 s.cursorX 2 }
  else if key = leftArrow then
    if s.cursorX ≥ 3 then .next ({ s with cursorX := sub32 s.cursorX 3 }.back 1) else .next s
  else if key = rightArrow then
    if s.cursorX ≤ 75 then .next ({ s with cursorX := s.cursorX + 3 }.forward 1) else .next s
  else if key = upArrow then
    if s.cursorY ≠ 0 then .next ({ s with cursorY := sub32 s.cursorY 1 }.back 27) else .next s
  else if key = downArrow then
    if s.cursorY ≠ sub32 (yResolution / 16) 1 then
      .next ({ s with cursorY := u32 (s.cursorY + 1) }.forward 27)
    else .next s
  else if key = homeKey then .next { s.back (s.cursorX / 3) with cursorX := 0 }
  else if key = endKey then
    .next { s.forward (sub32 79 (s.cursorX / 3)) with cursorX := 78 }
  else if isxdigit key then .next (typeDigit key s)
  else .next s

/-- The loop over keys that only edit. -/
def hexEditor (yResolution : Nat) : List UInt8 → HexEditor → Option HexEditor
  | [], s => some s
  | key :: keys, s =>
    match hexEditorKey yResolution key s with
    | .next s => hexEditor yResolution keys s
    | _ => none

/-- `main` with a new binary file, and `hex_editor`'s start: `calloc(1, 512)` at `address`. -/
def newHexFile (mem : Bytes) (address : Nat) : HexEditor where
  mem := blit mem address 512 fun _ => 0
  filePtr := address
  fileAddress := address
  fileOffset := 0
  editorFilesize := 0
  cursorX := 0
  cursorY := 0
  hexCount := 0
  hexByte := 0

/-! ## 3. Digits -/

/-- The value of a hexadecimal digit. -/
def digitValue (c : UInt8) : Nat :=
  if c ≤ 0x39 then c.toNat - 0x30 else if c ≤ 0x46 then c.toNat - 0x37 else c.toNat - 0x57

/-- The byte that two digits spell. -/
def pairValue (d : UInt8 × UInt8) : UInt8 := UInt8.ofNat (16 * digitValue d.1 + digitValue d.2)

/-- The byte that the editor makes of them. -/
def pairByte (d : UInt8 × UInt8) : UInt8 :=
  (hexNumber (toupper d.1) <<< 4) ||| hexNumber (toupper d.2)

/-- **Harmless**: a lower case letter does not come second, or the bit that it brings is already
there. -/
def Harmless (d : UInt8 × UInt8) : Prop :=
  islower d.2 = false ∨ (digitValue d.1).testBit 2 = true

instance (d : UInt8 × UInt8) : Decidable (Harmless d) := instDecidableOr

/-- **The number of a digit**: its value, and bit 6 for a lower case letter. -/
theorem hexNumber_toupper {c : UInt8} (h : isxdigit c = true) :
    digitValue c < 16 ∧ hexNumber (toupper c) =
      UInt8.ofNat (digitValue c) ||| (if islower c then 0x40 else 0) := by
  have hall : ∀ n ∈ List.range 256, isxdigit (UInt8.ofNat n) = true →
      digitValue (UInt8.ofNat n) < 16 ∧ hexNumber (toupper (UInt8.ofNat n)) =
        UInt8.ofNat (digitValue (UInt8.ofNat n)) |||
          (if islower (UInt8.ofNat n) then 0x40 else 0) := by
    decide +kernel
  have hc := hall c.toNat (List.mem_range.mpr c.toNat_lt)
  rw [UInt8.ofNat_toNat] at hc
  exact hc h

/-- Two numbers below 16 as one byte, with the bit of a lower case letter. -/
theorem nibbles : ∀ x ∈ List.range 16, ∀ y ∈ List.range 16, ∀ first ∈ [0, (0x40 : UInt8)],
    ((UInt8.ofNat x ||| first) <<< 4) ||| (UInt8.ofNat y ||| 0) = UInt8.ofNat (16 * x + y) ∧
      (((UInt8.ofNat x ||| first) <<< 4) ||| (UInt8.ofNat y ||| 0x40) = UInt8.ofNat (16 * x + y) ↔
        x.testBit 2 = true) := by
  decide +kernel

/-- **Which pairs make their byte.** -/
theorem pairByte_eq_iff {d : UInt8 × UInt8} (h : isxdigit d.1 = true) (h' : isxdigit d.2 = true) :
    pairByte d = pairValue d ↔ Harmless d := by
  obtain ⟨hfirst, hnumber⟩ := hexNumber_toupper h
  obtain ⟨hsecond, hnumber'⟩ := hexNumber_toupper h'
  have hbit : (if islower d.1 then (0x40 : UInt8) else 0) ∈ [0, (0x40 : UInt8)] := by
    split <;> simp
  obtain ⟨hplain, hlower⟩ := nibbles _ (List.mem_range.mpr hfirst) _ (List.mem_range.mpr hsecond) _
    hbit
  unfold pairByte pairValue Harmless
  rw [hnumber, hnumber']
  cases hlow : islower d.2 with
  | true => simpa using hlower
  | false => simpa using hplain

/-- No digit is another key of the editor. -/
theorem hexEditorKey_digit {key : UInt8} (h : isxdigit key = true) (yResolution : Nat)
    (s : HexEditor) : hexEditorKey yResolution key s = .next (typeDigit key s) := by
  have hall : ∀ k ∈ [runInput, endPgm, savePgm, backspaceKey, delKey, leftArrow, rightArrow,
      upArrow, downArrow, homeKey, endKey], key ≠ k := by
    rintro k hk rfl
    have hnone : ∀ k ∈ [runInput, endPgm, savePgm, backspaceKey, delKey, leftArrow, rightArrow,
        upArrow, downArrow, homeKey, endKey], isxdigit k = false := by
      simp [isxdigit, runInput, endPgm, savePgm, backspaceKey, delKey, leftArrow, rightArrow,
        upArrow, downArrow, homeKey, endKey]
    rw [hnone key hk] at h
    cases h
  simp only [List.mem_cons, List.not_mem_nil, or_false, forall_eq_or_imp, forall_eq] at hall
  obtain ⟨h1, h2, h3, h4, h5, h6, h7, h8, h9, h10, h11⟩ := hall
  unfold hexEditorKey
  simp only [if_neg h1, if_neg h2, if_neg h3, if_neg h4, if_neg h5, if_neg h6, if_neg h7, if_neg h8,
    if_neg h9, if_neg h10, if_neg h11, if_pos h]

/-! ## 4. Typing -/

/-- The keys of pairs of digits, in the order they are typed. -/
def pairKeys (pairs : List (UInt8 × UInt8)) : List UInt8 := pairs.flatMap fun d => [d.1, d.2]

/-- Both keys are digits. -/
def DigitPair (d : UInt8 × UInt8) : Prop := isxdigit d.1 = true ∧ isxdigit d.2 = true

instance (d : UInt8 × UInt8) : Decidable (DigitPair d) := instDecidableAnd

section

variable {yResolution : Nat} {s : HexEditor}

/-- **A pair of digits**: one byte. -/
theorem typeDigit_pair (h : s.hexCount = 0) (d : UInt8 × UInt8) :
    typeDigit d.2 (typeDigit d.1 s) =
      { (s.put (pairByte d)).forward 1 with
        hexByte := pairByte d
        editorFilesize := u32 (s.editorFilesize + 1)
        hexCount := 0 } := by
  unfold typeDigit
  simp only [h]
  rfl

/-- **A run of pairs**: their bytes, one behind the other. -/
theorem hexEditor_pairs : ∀ (pairs : List (UInt8 × UInt8)) {s : HexEditor}, s.hexCount = 0 →
    (∀ d ∈ pairs, DigitPair d) → s.filePtr + pairs.length ≤ 4294967296 →
    s.editorFilesize + pairs.length < 4294967296 →
    ∃ s', hexEditor yResolution (pairKeys pairs) s = some s' ∧
      s'.editorFilesize = s.editorFilesize + pairs.length ∧
      (∀ i (h : i < pairs.length), s'.mem (s.filePtr + i) = pairByte pairs[i]) ∧
      ∀ q < s.filePtr, s'.mem q = s.mem q
  | [], s, _, _, _, _ =>
    ⟨s, rfl, rfl, fun _ h => absurd h (Nat.not_lt_zero _), fun _ _ => rfl⟩
  | d :: pairs, s, hcount, hdigits, hptr, hsize => by
    rw [List.length_cons] at hptr hsize
    obtain ⟨hfirst, hsecond⟩ := hdigits d List.mem_cons_self
    have hone : hexEditor yResolution (pairKeys (d :: pairs)) s =
        hexEditor yResolution (pairKeys pairs) (typeDigit d.2 (typeDigit d.1 s)) := by
      show hexEditor yResolution (d.1 :: d.2 :: pairKeys pairs) s = _
      simp only [hexEditor, hexEditorKey_digit hfirst, hexEditorKey_digit hsecond]
    rw [hone, typeDigit_pair hcount]
    have hsize1 : u32 (s.editorFilesize + 1) = s.editorFilesize + 1 := u32_eq (by omega)
    cases hpairs : pairs with
    | nil =>
      refine ⟨_, rfl, hsize1, fun i hi => ?_, fun q hq => Function.update_of_ne (by omega) _ _⟩
      obtain rfl : i = 0 := Nat.lt_one_iff.mp hi
      exact Function.update_self _ _ _
    | cons next rest =>
      rw [← hpairs]
      have hmore : 1 ≤ pairs.length := by
        rw [hpairs, List.length_cons]
        omega
      have hptr1 : u32 (s.filePtr + 1) = s.filePtr + 1 := u32_eq (by omega)
      obtain ⟨s', hrun, hsize', hbytes, hbelow⟩ := hexEditor_pairs pairs
        (s := { (s.put (pairByte d)).forward 1 with
          hexByte := pairByte d
          editorFilesize := u32 (s.editorFilesize + 1)
          hexCount := 0 })
        rfl (fun d' hd' => hdigits d' (List.mem_cons_of_mem d hd'))
        (by show u32 (s.filePtr + 1) + pairs.length ≤ _; rw [hptr1]; omega)
        (by show u32 (s.editorFilesize + 1) + pairs.length < _; rw [hsize1]; omega)
      have hsize' : s'.editorFilesize = u32 (s.editorFilesize + 1) + pairs.length := hsize'
      have hbytes : ∀ i (h : i < pairs.length), s'.mem (u32 (s.filePtr + 1) + i) =
        pairByte pairs[i] := hbytes
      have hbelow : ∀ q < u32 (s.filePtr + 1), s'.mem q =
        Function.update s.mem s.filePtr (pairByte d) q := hbelow
      rw [hsize1] at hsize'
      rw [hptr1] at hbytes hbelow
      refine ⟨s', hrun, by rw [hsize', List.length_cons]; omega, fun i hi => ?_, fun q hq => ?_⟩
      · cases i with
        | zero =>
          rw [Nat.add_zero, hbelow _ (Nat.lt_succ_self _)]
          exact Function.update_self _ _ _
        | succ i =>
          have hshift : s.filePtr + (i + 1) = s.filePtr + 1 + i := by omega
          have hi' : i < pairs.length := Nat.lt_of_succ_lt_succ hi
          show s'.mem (s.filePtr + (i + 1)) = pairByte pairs[i]
          rw [hshift]
          exact hbytes i hi'
      · rw [hbelow q (Nat.lt_succ_of_lt hq)]
        exact Function.update_of_ne (Nat.ne_of_lt hq) _ _

end

/-- **What is typed is what is there**: the bytes of the file are those that the pairs spell, and
there are as many. -/
def HexTyped (yResolution : Nat) (mem : Bytes) (address : Nat) (pairs : List (UInt8 × UInt8)) : Prop :=
  ∃ s, hexEditor yResolution (pairKeys pairs) (newHexFile mem address) = some s ∧
    (∀ i (h : i < pairs.length), s.mem (address + i) = pairValue pairs[i]) ∧
    s.editorFilesize = pairs.length

/-- Typing is what the pairs make of it. -/
theorem hexTyped_pairByte {yResolution : Nat} {mem : Bytes} {address : Nat}
    {pairs : List (UInt8 × UInt8)} (hlength : pairs.length ≤ 512)
    (haddress : address + 512 ≤ 4294967296) (hdigits : ∀ d ∈ pairs, DigitPair d) :
    HexTyped yResolution mem address pairs ↔ ∀ d ∈ pairs, pairByte d = pairValue d := by
  obtain ⟨s, hrun, hsize, hbytes, _⟩ := @hexEditor_pairs yResolution pairs
    (newHexFile mem address) rfl hdigits (by show address + pairs.length ≤ _; omega)
    (by show 0 + pairs.length < _; omega)
  constructor
  · rintro ⟨s', hrun', hvalues, _⟩ d hd
    obtain rfl := Option.some.inj (hrun.symm.trans hrun')
    obtain ⟨i, hi, rfl⟩ := List.getElem_of_mem hd
    rw [← hvalues i hi]
    exact (hbytes i hi).symm
  · intro h
    refine ⟨s, hrun, fun i hi => ?_, hsize.trans (Nat.zero_add _)⟩
    rw [← h _ (List.getElem_mem hi)]
    exact hbytes i hi

/-- **Hex input produces the bytes typed** when every pair is harmless, and only then. -/
theorem hexTyped_iff (yResolution : Nat) (mem : Bytes) (address : Nat) (pairs : List (UInt8 × UInt8))
    (hlength : pairs.length ≤ 512) (haddress : address + 512 ≤ 4294967296)
    (hdigits : ∀ d ∈ pairs, DigitPair d) :
    HexTyped yResolution mem address pairs ↔ ∀ d ∈ pairs, Harmless d := by
  rw [hexTyped_pairByte hlength haddress hdigits]
  exact forall₂_congr fun d hd => pairByte_eq_iff (hdigits d hd).1 (hdigits d hd).2

/-- `4f` and `a0`: a lower case letter behind a digit that has its bit, and one that comes first. -/
theorem hexTyped_harmless : HexTyped 768 (fun _ => 0) 0x400000 [(0x34, 0x66), (0x61, 0x30)] :=
  (hexTyped_iff 768 (fun _ => 0) 0x400000 [(0x34, 0x66), (0x61, 0x30)] (by decide) (by decide)
    (by simp [DigitPair, isxdigit])).mpr (by simp [Harmless, islower, digitValue, Nat.testBit])

/-- **`0a` becomes `4a`.** -/
theorem hexTyped_lower : ¬ ∀ (yResolution : Nat) (mem : Bytes) (address : Nat)
    (pairs : List (UInt8 × UInt8)), pairs.length ≤ 512 → address + 512 ≤ 4294967296 →
      (∀ d ∈ pairs, DigitPair d) → HexTyped yResolution mem address pairs := by
  intro h
  have hdigits : ∀ d ∈ [((0x30, 0x61) : UInt8 × UInt8)], DigitPair d := by
    simp [DigitPair, isxdigit]
  have htyped := h 768 (fun _ => 0) 0x400000 [(0x30, 0x61)] (by decide) (by decide) hdigits
  rw [hexTyped_pairByte (by decide) (by decide) hdigits] at htyped
  exact absurd (htyped (0x30, 0x61) List.mem_cons_self) (by decide)

end AmateurOs.Editor
