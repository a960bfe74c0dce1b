/-
# `printf`

The formatted output of `C/stdio.h`: what `printf` leaves in `write_buffer` before it calls
`write`.

* The arguments are the 32-bit words above `fmt` on the stack.  A `%s` takes such a word as the
  address of a string.
* `printf_int` indexes its table of digits with a signed remainder: for a `%u` of 2^31 or more, and
  for the `%d` whose negation wraps, it reads below the table.
* A format that ends behind the flags or the width of a conversion is read past its terminator;
  the result is `none` there.
-/
import AmateurOs.Lib.Bytes

namespace AmateurOs.Terminal

open AmateurOs.Lib

/-! ## 1. Characters -/

/-- The code of a character. -/
def char (c : Char) : UInt8 := UInt8.ofNat c.toNat

/-- The characters of a literal. -/
def text (s : String) : List UInt8 := s.toList.map char

/-- `digits`: the table of `printf_hex` and `printf_int`. -/
def digits : List UInt8 := text "0123456789ABCDEF"

/-- `c >= '0' && c <= '9'`. -/
def isDigit (c : UInt8) : Bool := char '0' ≤ c && c ≤ char '9'

/-- What `printf` finds in memory: its arguments, the strings at addresses, and the bytes of the
stack below a table of digits. -/
structure Stack where
  args : Nat → UInt32
  strings : Nat → List UInt8
  below : Nat → UInt8

/-! ## 2. Numbers -/

/-- The `do … while` loop of `printf_hex`: the digits of `n`, lowest first. -/
def hexLoop : Nat → Nat → List UInt8
  | 0, _ => []
  | fuel + 1, n => digits.getD (n % 16) 0 :: if n / 16 > 0 then hexLoop fuel (n / 16) else []

/-- `printf_hex`.  `buf` has 32 places. -/
def printfHex (num : Nat) (minDigits : Int) : List UInt8 :=
  let pad := decide (num < 0x10)
  let buf := hexLoop 32 num
  let buf := buf ++ List.replicate (minDigits - buf.length).toNat (char '0')
  (if pad || (buf.length - 1) % 2 == 0 then [char '0'] else []) ++ buf.reverse

/-- `digits[i]` with a signed index. -/
def digitAt (e : Stack) (i : Int) : UInt8 :=
  if i < 0 then e.below (-i).toNat else digits.getD i.toNat 0

/-- The `do … while` loop of `printf_int`. -/
def intLoop (e : Stack) (base : Nat) : Nat → Int → List UInt8
  | 0, _ => []
  | fuel + 1, n =>
    digitAt e (n.tmod base) ::
      if n.tdiv base > 0 then intLoop e base fuel (n.tdiv base) else []

/-- `printf_int`; `num` and its negation are `int32_t`. -/
def printfInt (e : Stack) (num : Int) (base : Nat) (sign : Bool) (minDigits : Int) : List UInt8 :=
  let negative := sign && num < 0
  let buf := intLoop e base 32 (if negative then toInt32 (ofInt32 (-num)) else num)
  let buf := buf ++ List.replicate (minDigits - buf.length).toNat (char '0')
  (buf ++ if negative then [char '-'] else []).reverse

/-- `num_digits`: how often `tmp` can be divided by `base` before it is 0, at least once. -/
def numDigits (base : Nat) : Nat → Nat → Int
  | 0, _ => 0
  | fuel + 1, tmp => 1 + if tmp / base ≠ 0 then numDigits base fuel (tmp / base) else 0

/-! ## 3. Conversions -/

/-- The flags, width and precision of a conversion. -/
structure Spec where
  alternateForm : Bool
  leftAdjust : Bool
  fieldWidth : Int
  precision : Int

/-- The flags in front of a conversion, and the rest of the format. -/
def flags : List UInt8 → Bool → Bool → Bool × Bool × List UInt8
  | [], alternateForm, leftAdjust => (alternateForm, leftAdjust, [])
  | c :: rest, alternateForm, leftAdjust =>
    if c = char '#' then flags rest true leftAdjust
    else if c = char '-' then flags rest alternateForm true
    else (alternateForm, leftAdjust, c :: rest)

/-- A decimal number of the format, and the rest of the format. -/
def number : List UInt8 → Nat → Nat × List UInt8
  | [], n => (n, [])
  | c :: rest, n =>
    if isDigit c then number rest (n * 10 + (c.toNat - (char '0').toNat)) else (n, c :: rest)

/-- Flags, width and precision after a `%`, and the format from the conversion specifier on. -/
def readSpec (fmt : List UInt8) : Spec × List UInt8 :=
  let (alternateForm, leftAdjust, rest) := flags fmt false false
  let (fieldWidth, rest) := number rest 0
  let (precision, rest) :=
    match rest with
    | c :: rest' => if c = char '.' then number rest' 0 else (0, rest)
    | [] => (0, [])
  (⟨alternateForm, leftAdjust, fieldWidth, precision⟩, rest)

/-- The spaces that fill a field. -/
def spaces (diff : Int) : List UInt8 := List.replicate diff.toNat (char ' ')

/-- `diff`: the width left over by the digits, the zeros of the precision and `extra`
characters. -/
def fill (spec : Spec) (digitCount extra : Int) : Int :=
  let diff := spec.fieldWidth - digitCount - extra
  if spec.precision - digitCount > 0 then diff - (spec.precision - digitCount) else diff

/-- The spaces to the right of a number. -/
def rightPad (spec : Spec) (diff : Int) : List UInt8 :=
  if spec.leftAdjust then spaces diff else []

/-- The text of one conversion, and the number of arguments it takes. -/
def convert (e : Stack) (spec : Spec) (arg : Nat) (c : UInt8) : List UInt8 × Nat :=
  if c = char 'd' then
    let number := toInt32 (e.args arg).toNat
    let diff := fill spec (numDigits 10 32 number.natAbs) (if number < 0 then 1 else 0)
    (printfInt e number 10 true spec.precision ++ rightPad spec diff, 1)
  else if c = char 'u' then
    let number := (e.args arg).toNat
    let diff := fill spec (numDigits 10 32 number) 0
    (printfInt e (toInt32 number) 10 false spec.precision ++ rightPad spec diff, 1)
  else if c = char 'x' then
    let number := (e.args arg).toNat
    let diff := fill spec (numDigits 16 32 number) (if spec.alternateForm then 2 else 0)
    ((if spec.alternateForm then text "0x" else []) ++ printfHex number spec.precision ++
      rightPad spec diff, 1)
  else if c = char 's' then
    let p := (e.args arg).toNat
    let s := if p = 0 then text "(null)" else e.strings p
    let diff := spec.fieldWidth - s.length
    ((if spec.leftAdjust then [] else spaces diff) ++ s ++
      if spec.leftAdjust then spaces diff else [], 1)
  else if c = char 'c' then ([UInt8.ofNat (e.args arg).toNat], 1)
  else if c = char '%' then ([c], 0)
  else ([char '%', c], 0)

/-- The loop of `printf` over the characters of the format that are left; `fuel` bounds its
turns. -/
def printfLoop (e : Stack) : Nat → List UInt8 → Nat → List UInt8 → Option (List UInt8)
  | 0, _, _, _ => none
  | _ + 1, [], _, out => some out
  | fuel + 1, c :: fmt, arg, out =>
    if c ≠ char '%' then printfLoop e fuel fmt arg (out ++ [c])
    -- a `%` at the end sets the state, and the loop is over
    else if fmt = [] then some out
    else
      match readSpec fmt with
      | (_, []) => none
      | (spec, c :: rest) =>
        let (converted, taken) := convert e spec arg c
        printfLoop e fuel rest (arg + taken) (out ++ converted)

/-- `printf`: the text in `write_buffer` that it passes to `write`. -/
def printf (e : Stack) (fmt : List UInt8) : Option (List UInt8) :=
  printfLoop e (fmt.length + 1) fmt 0 []

end AmateurOs.Terminal
