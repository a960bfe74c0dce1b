/-
# The calculator's parser

`calculator.c` reads an arithmetic expression from `buffer` with three functions that call each
other: `parse_sum`, `parse_product` and `parse_term`.  They share the scan position `scan`, and
what they return doubles as their error: -1 is `ERROR`.

The parser is followed here over the characters from `buffer[scan]` on: `scan++` takes the first
of them away.  The buffer has 80 characters and is cleared before each line, so a line of at most
79 leaves a zero behind it; no test of the parser takes a zero, which is why the end of the list
can stand for it.

The recursion has no bound of its own in the source and takes `fuel` here.  Each call that goes
down to a parenthesis or around a loop takes a character, and `fuelFor` counts what a line needs.
-/
import Mathlib.Data.List.Basic

namespace AmateurOs.Calculator

/-! ## 1. Characters -/

/-- What stops the calculator without an answer: the processor's divide error. -/
inductive Fault where
  | divideError
  | outOfFuel
  deriving DecidableEq, Repr

/-- `ERROR`, an `int8_t` that is compared as an `int32_t`. -/
abbrev error : Int32 := -1

/-- `match_char`: the characters behind `inChar`, if that is what comes next. -/
def matchChar (inChar : UInt8) : List UInt8 → Option (List UInt8)
  | c :: rest => if inChar = c then some rest else none
  | [] => none

/-- `skip_blanks`. -/
def skipBlanks : List UInt8 → List UInt8
  | c :: rest => if c = 0x20 then skipBlanks rest else c :: rest
  | [] => []

/-- The test of `is_digit`: from `'0'` to `'9'`. -/
def isDigit (c : UInt8) : Bool := 0x30 ≤ c && c ≤ 0x39

/-- The number with one more digit, in 32 bits. -/
def pushDigit (num : Int32) (c : UInt8) : Int32 := num * 10 + Int32.ofNat (c.toNat - 0x30)

/-- `while (is_digit(&parse_num))`. -/
def digitLoop (num : Int32) : List UInt8 → Int32 × List UInt8
  | c :: rest => if isDigit c then digitLoop (pushDigit num c) rest else (num, c :: rest)
  | [] => (num, [])

/-- `parse_number`. -/
def parseNumber : List UInt8 → Int32 × List UInt8
  | c :: rest => if isDigit c then digitLoop (pushDigit 0 c) rest else (error, c :: rest)
  | [] => (error, [])

/-! ## 2. The three functions -/

/-- What a parsing function leaves: its `int32_t` and the characters from `buffer[scan]` on. -/
abbrev Parsed : Type := Except Fault (Int32 × List UInt8)

/-- `num /= num2`. -/
def divide (num num2 : Int32) : Except Fault Int32 :=
  if num2 = 0 then .error .divideError else .ok (num / num2)

mutual

/-- `parse_sum`. -/
def parseSum : Nat → List UInt8 → Parsed
  | 0, _ => .error .outOfFuel
  | fuel + 1, chars => do
    let (num, chars) ← parseProduct fuel chars
    if num = error then .ok (error, chars) else sumLoop fuel num chars

/-- The loop of `parse_sum`. -/
def sumLoop : Nat → Int32 → List UInt8 → Parsed
  | 0, _, _ => .error .outOfFuel
  | fuel + 1, num, chars =>
    match matchChar 0x2b (skipBlanks chars) with
    | some chars => do
      let (num2, chars) ← parseProduct fuel chars
      if num2 = error then .ok (error, chars) else sumLoop fuel (num + num2) chars
    | none =>
      match matchChar 0x2d (skipBlanks chars) with
      | some chars => do
        let (num2, chars) ← parseProduct fuel chars
        if num2 = error then .ok (error, chars) else sumLoop fuel (num - num2) chars
      | none => .ok (num, skipBlanks chars)

/-- `parse_product`. -/
def parseProduct : Nat → List UInt8 → Parsed
  | 0, _ => .error .outOfFuel
  | fuel + 1, chars => do
    let (num, chars) ← parseTerm fuel chars
    if num = error then .ok (error, chars) else productLoop fuel num chars

/-- The loop of `parse_product`. -/
def productLoop : Nat → Int32 → List UInt8 → Parsed
  | 0, _, _ => .error .outOfFuel
  | fuel + 1, num, chars =>
    match matchChar 0x2a (skipBlanks chars) with
    | some chars => do
      let (num2, chars) ← parseTerm fuel chars
      if num2 = error then .ok (error, chars) else productLoop fuel (num * num2) chars
    | none =>
      match matchChar 0x2f (skipBlanks chars) with
      | some chars => do
        let (num2, chars) ← parseTerm fuel chars
        if num2 = error then .ok (error, chars)
        else do
          let num ← divide num num2
          productLoop fuel num chars
      | none => .ok (num, skipBlanks chars)

/-- `parse_term`.  Behind a minus sign the result is negated without a look at it. -/
def parseTerm : Nat → List UInt8 → Parsed
  | 0, _ => .error .outOfFuel
  | fuel + 1, chars =>
    match matchChar 0x28 (skipBlanks chars) with
    | some chars => do
      let (num, chars) ← parseSum fuel chars
      if num = error then .ok (error, chars)
      else
        match matchChar 0x29 (skipBlanks chars) with
        | some chars => .ok (num, chars)
        | none => .ok (error, skipBlanks chars)
    | none =>
      match matchChar 0x2d (skipBlanks chars) with
      | some chars => do
        let (num, chars) ← parseTerm fuel chars
        .ok (-num, chars)
      | none => .ok (parseNumber (skipBlanks chars))

end

/-! ## 3. A line of input -/

/-- A line that leaves at least one zero behind it in `buffer`. -/
structure Line where
  chars : List UInt8
  fits : chars.length ≤ 79

/-- What `parse_buffer` prints. -/
inductive Report where
  | syntaxError
  | number (num : Int32)
  deriving DecidableEq, Repr

/-- Calls that a line can need, one inside another. -/
def fuelFor (chars : List UInt8) : Nat := 4 * chars.length + 3

/-- `parse_buffer`. -/
def parseBuffer (line : Line) : Except Fault Report := do
  let (num, _) ← parseSum (fuelFor line.chars) line.chars
  if num = error then .ok .syntaxError else .ok (.number num)

end AmateurOs.Calculator
