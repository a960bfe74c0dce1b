/-
# Printed numbers

What `printf` writes for `%d`, `%u` and `%x` with a precision, read back as a number, and the
cursor escape that the editor writes with `%u`.

The loop of `printf_int` divides a signed number.  From a number that is not negative it takes all
digits (`intLoop_eq`); from a negative one it takes a single remainder, which is an index below its
table.  That happens for a `%u` from 2^31 on and for the `%d` of -2^31, whose negation wraps, and
for no other argument (`numbers_read_iff`).
-/
import AmateurOs.Terminal.Colours

namespace AmateurOs.Terminal

open AmateurOs.Lib AmateurOs.Fs

/-! ## 1. Rows of digits -/

/-- The characters are digits of the base, the highest first, and denote `n`. -/
def Denotes (base : Nat) (cs : List UInt8) (n : Nat) : Prop :=
  ∃ ds : List Nat, ds ≠ [] ∧ (∀ d ∈ ds, d < base) ∧ cs = (ds.map hexChar).reverse ∧
    Nat.ofDigits base ds = n

/-- The digits of a number, at least one. -/
def someDigits (base n : Nat) : List Nat := if n = 0 then [0] else Nat.digits base n

theorem someDigits_ne_nil (base n : Nat) : someDigits base n ≠ [] := by
  unfold someDigits
  split
  · exact List.cons_ne_nil _ _
  · next h => exact Nat.digits_ne_nil_iff_ne_zero.2 h

theorem someDigits_lt {base n d : Nat} (hbase : 1 < base) (h : d ∈ someDigits base n) :
    d < base := by
  unfold someDigits at h
  split at h
  · rw [List.mem_singleton.1 h]
    omega
  · exact Nat.digits_lt_base hbase h

theorem ofDigits_someDigits (base n : Nat) : Nat.ofDigits base (someDigits base n) = n := by
  unfold someDigits
  split
  · next h =>
    rw [h]
    rfl
  · exact Nat.ofDigits_digits base n

/-- **Digits with zeros in front of them** denote the number still. -/
theorem denotes_padded {base n : Nat} (hbase : 1 < base) (zeros : Nat) :
    Denotes base ((someDigits base n ++ List.replicate zeros 0).map hexChar).reverse n := by
  refine ⟨_, fun h => someDigits_ne_nil base n (List.append_eq_nil_iff.1 h).1, fun d hd => ?_, rfl,
    ?_⟩
  · rcases List.mem_append.1 hd with h | h
    · exact someDigits_lt hbase h
    · rw [(List.mem_replicate.1 h).2]
      omega
  · rw [Nat.ofDigits_append_replicate_zero, ofDigits_someDigits]

/-- One more zero. -/
theorem Denotes.zero {base n : Nat} {cs : List UInt8} (hbase : 0 < base) (h : Denotes base cs n) :
    Denotes base (char '0' :: cs) n := by
  obtain ⟨ds, hne, hlt, rfl, hvalue⟩ := h
  refine ⟨ds ++ [0], List.append_ne_nil_of_left_ne_nil hne _, fun d hd => ?_, ?_, ?_⟩
  · rcases List.mem_append.1 hd with h | h
    · exact hlt d h
    · exact List.mem_singleton.1 h ▸ hbase
  · rw [List.map_append, List.reverse_append]
    rfl
  · rw [Nat.ofDigits_append, Nat.ofDigits_singleton, Nat.mul_zero, Nat.add_zero, hvalue]

/-- A row whose digits are zeros but for the last character denotes less than the base. -/
theorem denotes_zeros {base n zeros : Nat} {c : UInt8} (hlimit : base ≤ 16)
    (h : Denotes base (List.replicate zeros (char '0') ++ [c]) n) : n < base := by
  obtain ⟨ds, hne, hlt, hcs, rfl⟩ := h
  have hrow : ds.map hexChar = c :: List.replicate zeros (char '0') := by
    have hreverse := congrArg List.reverse hcs
    rw [List.reverse_reverse, List.reverse_append, List.reverse_replicate] at hreverse
    exact hreverse.symm
  obtain ⟨d, ds, rfl⟩ := List.exists_cons_of_ne_nil hne
  rw [List.map_cons, List.cons.injEq] at hrow
  have hzero : ∀ e < 16, hexChar e = char '0' → e = 0 := by decide
  have hall : ∀ e ∈ ds, e = 0 := by
    intro e he
    refine hzero e (Nat.lt_of_lt_of_le (hlt e (List.mem_cons_of_mem _ he)) hlimit) ?_
    exact (List.mem_replicate.1 (hrow.2 ▸ List.mem_map_of_mem he)).2
  rw [Nat.ofDigits_cons, List.eq_replicate_of_mem hall, Nat.ofDigits_replicate_zero, Nat.mul_zero]
  exact hlt d List.mem_cons_self

/-! ## 2. What the loops write -/

/-- One turn of the loop of `printf_int` at a number that is not negative. -/
theorem intLoop_succ (e : Stack) (base fuel n : Nat) : intLoop e base (fuel + 1) n =
    hexChar (n % base) :: if n / base > 0 then intLoop e base fuel (n / base : Nat) else [] := by
  have hdigit : digitAt e ((n : Int).tmod base) = hexChar (n % base) := by
    rw [← Int.ofNat_tmod]
    unfold digitAt hexChar
    rw [if_neg (Int.not_lt.2 (Int.natCast_nonneg _)), Int.toNat_natCast]
  rw [intLoop, hdigit, ← Int.ofNat_tdiv]
  simp only [gt_iff_lt, Int.natCast_pos]

/-- **The digits of the loop of `printf_int`**, from a number that is not negative, by induction on
the fuel. -/
theorem intLoop_eq (e : Stack) {base : Nat} (hbase : 1 < base) : ∀ (fuel n : Nat),
    n < base ^ (fuel + 1) → intLoop e base (fuel + 1) n = (someDigits base n).map hexChar := by
  intro fuel
  induction fuel with
  | zero =>
    intro n hn
    rw [Nat.zero_add, Nat.pow_one] at hn
    rw [intLoop_succ, Nat.div_eq_of_lt hn, if_neg (Nat.lt_irrefl 0), Nat.mod_eq_of_lt hn]
    unfold someDigits
    split
    · next h => rw [h, List.map_singleton]
    · next h => rw [Nat.digits_of_lt base n h hn, List.map_singleton]
  | succ fuel ih =>
    intro n hn
    have hdiv : n / base < base ^ (fuel + 1) := by
      rw [Nat.div_lt_iff_lt_mul (by omega), ← Nat.pow_succ]
      exact hn
    rw [intLoop_succ, ih _ hdiv]
    unfold someDigits
    by_cases h0 : n = 0
    · rw [if_pos h0, h0, Nat.zero_mod, Nat.zero_div, if_neg (Nat.lt_irrefl 0), List.map_singleton]
    · rw [if_neg h0, Nat.digits_def' hbase (Nat.pos_of_ne_zero h0), List.map_cons]
      by_cases hq : n / base > 0
      · rw [if_pos hq, if_neg (Nat.ne_of_gt hq)]
      · rw [if_neg hq, Nat.eq_zero_of_not_pos hq, Nat.digits_zero, List.map_nil]

/-- From a negative number the loop takes one character. -/
theorem intLoop_negative (e : Stack) (base fuel : Nat) {n : Int} (hn : n < 0) :
    ∃ c, intLoop e base (fuel + 1) n = [c] := by
  have hstop : ¬ n.tdiv base > 0 := by
    have hneg := Int.tdiv_nonneg (Int.neg_nonneg_of_nonpos (Int.le_of_lt hn))
      (Int.natCast_nonneg base)
    rw [Int.neg_tdiv] at hneg
    omega
  rw [intLoop, if_neg hstop]
  exact ⟨_, rfl⟩

/-- The characters are at least as many digits as the precision says and denote `n`; together with
a sign they fit into `buf`. -/
structure Reads (base n precision : Nat) (cs : List UInt8) : Prop where
  denotes : Denotes base cs n
  enough : precision ≤ cs.length
  fits : cs.length < 32

/-- The digits of a number with zeros in front of them up to a precision. -/
def printedDigits (base n precision : Nat) : List UInt8 :=
  List.replicate (precision - (someDigits base n).length) (char '0') ++
    ((someDigits base n).map hexChar).reverse

theorem length_printedDigits (base n precision : Nat) : (printedDigits base n precision).length
    = max precision (someDigits base n).length := by
  unfold printedDigits
  rw [List.length_append, List.length_replicate, List.length_reverse, List.length_map]
  omega

theorem denotes_printedDigits {base : Nat} (hbase : 1 < base) (n precision : Nat) :
    Denotes base (printedDigits base n precision) n := by
  have hzero : char '0' = hexChar 0 := by decide
  have hpadded := @denotes_padded base n hbase (precision - (someDigits base n).length)
  rw [List.map_append, List.reverse_append, List.map_replicate, List.reverse_replicate,
    ← hzero] at hpadded
  exact hpadded

/-- A 32-bit number has at most ten digits. -/
theorem length_someDigits {base n : Nat} (hbase : 10 ≤ base) (hn : n < 4294967296) :
    (someDigits base n).length ≤ 10 := by
  unfold someDigits
  split
  · exact Nat.succ_le_of_lt (by decide)
  · rw [Nat.digits_length_le_iff (by omega)]
    exact Nat.lt_of_lt_of_le (Nat.lt_of_lt_of_le hn (by decide)) (Nat.pow_le_pow_left hbase 10)

/-- **The digits of a 32-bit number** read back, with a precision of at most 30. -/
theorem reads_printedDigits {base n precision : Nat} (hbase : 10 ≤ base) (hn : n < 4294967296)
    (hprecision : precision ≤ 30) : Reads base n precision (printedDigits base n precision) ∧
      (printedDigits base n precision).length < 31 := by
  have hlength := length_printedDigits base n precision
  have hdigits := length_someDigits hbase hn
  exact ⟨⟨denotes_printedDigits (by omega) n precision, by omega, by omega⟩, by omega⟩

/-- What `printf_int` writes around the characters of its loop. -/
theorem printfInt_row (e : Stack) (num : Int) (sign : Bool) (precision : Nat) {negative : Bool}
    (hnegative : (sign && decide (num < 0)) = negative) {row : List UInt8}
    (hrow : intLoop e 10 32 (if negative then toInt32 (ofInt32 (-num)) else num) = row) :
    printfInt e num 10 sign precision = (if negative then [char '-'] else []) ++
      (List.replicate (precision - row.length) (char '0') ++ row.reverse) := by
  have hlength : ((precision : Int) - (row.length : Int)).toNat = precision - row.length := by omega
  unfold printfInt
  simp only [hnegative, hrow, hlength, List.reverse_append, List.reverse_replicate]
  cases negative <;> rfl

/-- **`printf_int` of a number that is not negative** writes its digits. -/
theorem printfInt_natural (e : Stack) {n : Nat} (hn : n < 2147483648) (sign : Bool)
    (precision : Nat) : printfInt e n 10 sign precision = printedDigits 10 n precision := by
  have hnegative : (sign && decide ((n : Int) < 0)) = false := by
    rw [decide_eq_false (Int.not_lt.2 (Int.natCast_nonneg n)), Bool.and_false]
  rw [printfInt_row e n sign precision hnegative
    (intLoop_eq e (by decide) 31 n (Nat.lt_of_lt_of_le hn (by decide))), List.length_map]
  rfl

/-- **`printf_int` of a negative number** that can be negated writes a sign and its digits. -/
theorem printfInt_negated (e : Stack) {n : Nat} (hpos : 0 < n) (hn : n < 2147483648)
    (precision : Nat) :
    printfInt e (-n) 10 true precision = char '-' :: printedDigits 10 n precision := by
  have hnegative : (true && decide (-(n : Int) < 0)) = true := by
    rw [Bool.true_and]
    exact decide_eq_true (by omega)
  have hwrap : toInt32 (ofInt32 (-(-(n : Int)))) = n := by
    have hcode : ofInt32 (-(-(n : Int))) = n := by
      unfold ofInt32
      omega
    rw [hcode, toInt32_eq hn]
  have hloop : intLoop e 10 32 (if true then toInt32 (ofInt32 (-(-(n : Int)))) else -(n : Int))
      = (someDigits 10 n).map hexChar := by
    rw [if_pos rfl, hwrap]
    exact intLoop_eq e (by decide) 31 n (Nat.lt_of_lt_of_le hn (by decide))
  rw [printfInt_row e (-n) true precision hnegative hloop, List.length_map]
  rfl

/-- **`printf_int` of a number that its loop finds negative** writes zeros and one character. -/
theorem printfInt_below (e : Stack) (num : Int) (sign : Bool) (precision : Nat) {negative : Bool}
    (hnegative : (sign && decide (num < 0)) = negative)
    (hbelow : (if negative then toInt32 (ofInt32 (-num)) else num) < 0) :
    ∃ c, printfInt e num 10 sign precision = (if negative then [char '-'] else []) ++
      (List.replicate (precision - 1) (char '0') ++ [c]) := by
  obtain ⟨c, hloop⟩ := intLoop_negative e 10 31 hbelow
  exact ⟨c, printfInt_row e num sign precision hnegative hloop⟩

/-- **`printf_hex`** writes the digits, with one more zero where their number is odd. -/
theorem printfHex_digits {n precision : Nat} (hn : n < 4294967296) (hprecision : precision ≤ 30) :
    Reads 16 n precision (printfHex n precision) := by
  obtain ⟨⟨hdenotes, henough, hfits⟩, hshort⟩ :=
    @reads_printedDigits 16 n precision (by decide) hn hprecision
  have hloop : hexLoop 32 n = (someDigits 16 n).map hexChar :=
    hexLoop_eq 31 n (Nat.lt_of_lt_of_le hn (by decide))
  have hpadded : ∀ pad : Bool,
      Reads 16 n precision ((if pad then [char '0'] else []) ++ printedDigits 16 n precision) := by
    intro pad
    cases pad with
    | false => exact ⟨hdenotes, henough, hfits⟩
    | true =>
      exact ⟨hdenotes.zero (by decide), henough.trans (Nat.le_succ _), Nat.succ_lt_succ hshort⟩
  unfold printedDigits at hpadded
  unfold printfHex
  simp only [hloop, List.reverse_append, List.reverse_replicate, List.length_map, Int.toNat_sub]
  exact hpadded _

/-! ## 3. Conversions with a precision -/

/-- `"%.#c"` for a row of digits and a conversion. -/
def precisionFormat (row : List UInt8) (c : UInt8) : List UInt8 :=
  char '%' :: char '.' :: (row ++ [c])

/-- A number of the format is read digit by digit. -/
theorem number_row {c : UInt8} (hc : isDigit c = false) (rest : List UInt8) :
    ∀ (cs : List UInt8) (v : Nat), (∀ d ∈ cs, isDigit d = true) → number (cs ++ c :: rest) v =
      (cs.foldl (fun v d => v * 10 + (d.toNat - (char '0').toNat)) v, c :: rest) := by
  intro cs
  induction cs with
  | nil =>
    intro v _
    rw [List.nil_append, number, hc]
    rfl
  | cons d cs ih =>
    intro v h
    rw [List.cons_append, number, h d List.mem_cons_self, if_pos rfl,
      ih _ fun d' hd => h d' (List.mem_cons_of_mem _ hd)]
    rfl

/-- **A row of decimal digits denotes its fold**, for every step that appends a digit. -/
theorem fold_row {step : Nat → UInt8 → Nat} {reduce : Nat → Nat} (hzero : reduce 0 = 0)
    (hstep : ∀ v, ∀ d < 10, step (reduce v) (hexChar d) = reduce (d + 10 * v)) {cs : List UInt8}
    {n : Nat} (h : Denotes 10 cs n) : cs.foldl step 0 = reduce n := by
  obtain ⟨ds, -, hlt, rfl, rfl⟩ := h
  induction ds with
  | nil => exact hzero.symm
  | cons d ds ih =>
    rw [List.map_cons, List.reverse_cons, List.foldl_append,
      ih fun e he => hlt e (List.mem_cons_of_mem _ he), Nat.ofDigits_cons]
    exact hstep _ d (hlt d List.mem_cons_self)

theorem isDigit_hexChar {d : Nat} (h : d < 10) : isDigit (hexChar d) = true := by
  have hall : ∀ d < 10, isDigit (hexChar d) = true := by decide
  exact hall d h

theorem hexChar_toNat {d : Nat} (h : d < 10) : (hexChar d).toNat = 48 + d := by
  have hall : ∀ d < 10, (hexChar d).toNat = 48 + d := by decide
  exact hall d h

theorem Denotes.isDigit {cs : List UInt8} {n : Nat} (h : Denotes 10 cs n) {c : UInt8}
    (hc : c ∈ cs) : isDigit c = true := by
  obtain ⟨ds, -, hlt, rfl, -⟩ := h
  obtain ⟨d, hd, rfl⟩ := List.mem_map.1 (List.mem_reverse.1 hc)
  exact isDigit_hexChar (hlt d hd)

/-- **The precision of a format is what its digits denote.** -/
theorem readSpec_precision {row : List UInt8} {precision : Nat} (hrow : Denotes 10 row precision)
    {c : UInt8} (hc : isDigit c = false) : readSpec (char '.' :: (row ++ [c])) =
      (⟨false, false, 0, precision⟩, [c]) := by
  have hnumber : number (row ++ [c]) 0 = (precision, [c]) := by
    rw [number_row hc [] row 0 fun d hd => hrow.isDigit hd,
      @fold_row _ id rfl ?_ row precision hrow]
    · rfl
    · intro v d hd
      have hzero : (char '0').toNat = 48 := by decide
      simp only [hexChar_toNat hd, hzero, id]
      omega
  have hflags : flags (char '.' :: (row ++ [c])) false false
      = (false, false, char '.' :: (row ++ [c])) := rfl
  have hwidth : number (char '.' :: (row ++ [c])) 0 = (0, char '.' :: (row ++ [c])) := rfl
  unfold readSpec
  simp only [hflags, hwidth, if_pos, hnumber]
  rfl

/-- **`printf` of one conversion with a precision.** -/
theorem printf_precision (e : Stack) {row : List UInt8} {precision : Nat}
    (hrow : Denotes 10 row precision) {c : UInt8} (hc : isDigit c = false) :
    printf e (precisionFormat row c)
      = some (convert e ⟨false, false, 0, precision⟩ 0 c).1 := by
  have hspec := readSpec_precision hrow hc
  have hlength : (precisionFormat row c).length + 1 = row.length + 2 + 1 + 1 := by
    unfold precisionFormat
    rw [List.length_cons, List.length_cons, List.length_append, List.length_singleton]
  unfold printf
  rw [hlength]
  unfold precisionFormat
  rw [printfLoop, if_neg (not_not_intro rfl), if_neg (List.cons_ne_nil _ _), hspec]
  simp only [List.nil_append]
  rw [printfLoop]

/-! ## 4. Reading back -/

/-- The text of a signed number: a sign for a negative one, and the digits. -/
def ReadsSigned (n : Int) (precision : Nat) (out : List UInt8) : Prop :=
  ∃ cs, out = (if n < 0 then [char '-'] else []) ++ cs ∧ Reads 10 n.natAbs precision cs

/-- `printf` writes a text with a property. -/
def Prints (e : Stack) (format : List UInt8) (property : List UInt8 → Prop) : Prop :=
  ∃ out, printf e format = some out ∧ property out

theorem prints_iff {e : Stack} {format out : List UInt8} {property : List UInt8 → Prop}
    (h : printf e format = some out) : Prints e format property ↔ property out := by
  constructor
  · rintro ⟨out', hout, hproperty⟩
    exact Option.some.inj (hout.symm.trans h) ▸ hproperty
  · exact fun hproperty => ⟨out, h, hproperty⟩

/-- **`%d` reads back** but for the number that cannot be negated. -/
theorem printfInt_signed_iff (e : Stack) {n : Int} (hlow : -2147483648 ≤ n) (hhigh : n < 2147483648)
    {precision : Nat} (hprecision : precision ≤ 30) :
    ReadsSigned n precision (printfInt e n 10 true precision) ↔ n ≠ -2147483648 := by
  constructor
  · rintro ⟨cs, hout, hreads⟩ rfl
    obtain ⟨c, hbelow⟩ := printfInt_below e (-2147483648) true precision rfl (by decide)
    rw [hbelow] at hout
    have hrow : List.replicate (precision - 1) (char '0') ++ [c] = cs :=
      List.append_cancel_left hout
    have hless := denotes_zeros (by decide) (hrow ▸ hreads.denotes)
    exact absurd hless (by decide)
  · intro hne
    obtain ⟨k, rfl | rfl⟩ := Int.eq_nat_or_neg n
    · have hreads := (@reads_printedDigits 10 k precision (by decide) (by omega) hprecision).1
      rw [printfInt_natural e (by omega) true precision]
      refine ⟨_, ?_, hreads⟩
      rw [if_neg (Int.not_lt.2 (Int.natCast_nonneg k)), List.nil_append]
    · have hreads := (@reads_printedDigits 10 k precision (by decide) (by omega) hprecision).1
      by_cases hk : k = 0
      · rw [hk] at hreads ⊢
        exact ⟨_, printfInt_natural e (by decide) true precision, hreads⟩
      · rw [printfInt_negated e (Nat.pos_of_ne_zero hk) (by omega) precision]
        refine ⟨printedDigits 10 k precision, ?_, ?_⟩
        · rw [if_pos (by omega)]
          rfl
        · rw [Int.natAbs_neg, Int.natAbs_natCast]
          exact hreads

/-- **`%u` reads back** below 2^31. -/
theorem printfInt_unsigned_iff (e : Stack) {n : Nat} (hn : n < 4294967296) {precision : Nat}
    (hprecision : precision ≤ 30) :
    Reads 10 n precision (printfInt e (toInt32 n) 10 false precision) ↔ n < 2147483648 := by
  by_cases hsmall : n < 2147483648
  · refine iff_of_true ?_ hsmall
    rw [toInt32_eq hsmall, printfInt_natural e hsmall false precision]
    exact (@reads_printedDigits 10 n precision (by decide) hn hprecision).1
  · refine iff_of_false (fun hreads => ?_) hsmall
    have hnegative : toInt32 n < 0 := by
      unfold toInt32 u32
      omega
    obtain ⟨c, hbelow⟩ := printfInt_below e (toInt32 n) false precision rfl hnegative
    rw [hbelow] at hreads
    have hless := denotes_zeros (by decide) hreads.denotes
    omega

/-- What `printf` writes for `%d`, `%u` and `%x` with a precision. -/
theorem printf_conversions (e : Stack) {row : List UInt8} {precision : Nat}
    (hrow : Denotes 10 row precision) :
    printf e (precisionFormat row (char 'd'))
        = some (printfInt e (toInt32 (e.args 0).toNat) 10 true precision) ∧
      printf e (precisionFormat row (char 'u'))
        = some (printfInt e (toInt32 (e.args 0).toNat) 10 false precision) ∧
      printf e (precisionFormat row (char 'x')) = some (printfHex (e.args 0).toNat precision) := by
  have hletters : isDigit (char 'd') = false ∧ isDigit (char 'u') = false ∧
      isDigit (char 'x') = false := by decide
  rw [printf_precision e hrow hletters.1, printf_precision e hrow hletters.2.1,
    printf_precision e hrow hletters.2.2]
  refine ⟨?_, ?_, ?_⟩
  · exact congrArg some (List.append_nil _)
  · exact congrArg some (List.append_nil _)
  · exact congrArg some (List.append_nil _)

/-- **Printed numbers read back**: `%d` for every number but -2^31, `%u` for every number below
2^31, and `%x` always. -/
theorem numbers_read_iff (e : Stack) (row : List UInt8) (precision : Nat)
    (hprecision : precision ≤ 30) (hrow : Denotes 10 row precision) :
    (Prints e (precisionFormat row (char 'd')) (ReadsSigned (toInt32 (e.args 0).toNat) precision) ↔
      toInt32 (e.args 0).toNat ≠ -2147483648) ∧
    (Prints e (precisionFormat row (char 'u')) (Reads 10 (e.args 0).toNat precision) ↔
      (e.args 0).toNat < 2147483648) ∧
    Prints e (precisionFormat row (char 'x')) (Reads 16 (e.args 0).toNat precision) := by
  obtain ⟨hd, hu, hx⟩ := printf_conversions e hrow
  have hlt : (e.args 0).toNat < 4294967296 := (e.args 0).toNat_lt
  rw [prints_iff hd, prints_iff hu, prints_iff hx]
  have hword := u32_lt (e.args 0).toNat
  have hbounds : -2147483648 ≤ toInt32 (e.args 0).toNat ∧
      toInt32 (e.args 0).toNat < 2147483648 := by
    unfold toInt32
    omega
  exact ⟨printfInt_signed_iff e hbounds.1 hbounds.2 hprecision,
    printfInt_unsigned_iff e hlt hprecision, printfHex_digits hlt hprecision⟩

/-- The same argument for every conversion. -/
def oneArg (n : UInt32) : Stack := ⟨fun _ => n, fun _ => [], fun _ => 0⟩

/-- The digit 3. -/
theorem denotes_three : Denotes 10 (text "3") 3 :=
  ⟨[3], by decide, by decide, by decide, by decide⟩

/-- The theorem for -42 with three digits. -/
theorem numbers_read_negative :
    Prints (oneArg 4294967254) (precisionFormat (text "3") (char 'd')) (ReadsSigned (-42) 3) :=
  (numbers_read_iff (oneArg 4294967254) (text "3") 3 (by decide) denotes_three).1.mpr (by decide)

/-- **2^31 does not read back** from a `%u`. -/
theorem unsigned_lost : ¬ ∀ (e : Stack) (row : List UInt8) (precision : Nat), precision ≤ 30 →
    Denotes 10 row precision →
    Prints e (precisionFormat row (char 'd')) (ReadsSigned (toInt32 (e.args 0).toNat) precision) ∧
    Prints e (precisionFormat row (char 'u')) (Reads 10 (e.args 0).toNat precision) ∧
    Prints e (precisionFormat row (char 'x')) (Reads 16 (e.args 0).toNat precision) := by
  intro hall
  obtain ⟨-, hread, -⟩ := hall (oneArg 2147483648) (text "3") 3 (by decide) denotes_three
  rw [prints_iff (printf_conversions (oneArg 2147483648) denotes_three).2.1,
    printfInt_unsigned_iff (oneArg 2147483648) (by decide) (by decide)] at hread
  exact absurd hread (by decide)

/-! ## 5. The cursor escape -/

/-- The format of a cursor escape. -/
def positionFormat : List UInt8 := 0x1b :: text "X%uY%u;"

/-- The text of a cursor escape behind the escape character. -/
def positionText (x y : Nat) : List UInt8 :=
  char 'X' :: (printedDigits 10 x 0 ++ char 'Y' :: (printedDigits 10 y 0 ++ [char ';']))

/-- The conversion `%u` of a number below 2^31. -/
theorem convert_unsigned (e : Stack) (arg : Nat) (h : (e.args arg).toNat < 2147483648) :
    convert e ⟨false, false, 0, 0⟩ arg (char 'u') = (printedDigits 10 (e.args arg).toNat 0, 1) := by
  have hconvert : convert e ⟨false, false, 0, 0⟩ arg (char 'u') =
      (printfInt e (toInt32 (e.args arg).toNat) 10 false (0 : Nat) ++ [], 1) := rfl
  rw [hconvert, List.append_nil, toInt32_eq h, printfInt_natural e h]

/-- **What `printf` makes of a cursor escape.** -/
theorem printf_positionFormat (e : Stack) (hx : (e.args 0).toNat < 2147483648)
    (hy : (e.args 1).toNat < 2147483648) : printf e positionFormat =
      some (0x1b :: positionText (e.args 0).toNat (e.args 1).toNat) := by
  have hformat : positionFormat = [27, 88, 37, 117, 89, 37, 117, 59] := by decide
  have hpercent : char '%' = 37 := by decide
  have hspec : ∀ rest, readSpec (117 :: rest) = (⟨false, false, 0, 0⟩, 117 :: rest) :=
    fun _ => rfl
  have hletter : (117 : UInt8) = char 'u' := by decide
  have htext : char 'X' = 88 ∧ char 'Y' = 89 ∧ char ';' = 59 := by decide
  have hx' := convert_unsigned e 0 hx
  have hy' := convert_unsigned e 1 hy
  rw [← hletter] at hx' hy'
  simp [printf, printfLoop, hformat, hpercent, hspec, hx', hy', positionText, htext]

/-- **A digit of a position reads back.** -/
theorem decimal_hexChar (v : Nat) {d : Nat} (h : d < 10) :
    decimal (u32 v) (hexChar d) = u32 (d + 10 * v) := by
  unfold decimal
  rw [hexChar_toNat h]
  unfold sub32 u32
  omega

/-- **A scan over a row of decimal digits** reads what they denote. -/
theorem scan_denotes {str : Bytes} {i n : Nat} {cs : List UInt8} {stop : UInt8}
    (h : Denotes 10 cs n) (hn : n < 4294967296) (hs : Spells str i cs)
    (hstop : str (i + cs.length) = stop) (hmark : isDigit stop = false)
    (hlength : cs.length < indexTurns) :
    scan str stop decimal indexTurns i 0 = some (i + cs.length, n) := by
  have hvalue := @fold_row decimal u32 rfl (fun v d hd => decimal_hexChar v hd) cs n h
  rw [u32_eq hn] at hvalue
  rw [scan_spells cs hlength hs (fun c hc heq => ?_) hstop, hvalue]
  exact absurd (heq ▸ h.isDigit hc) (hmark ▸ Bool.false_ne_true)

/-- The digits of a position are not too many for a scan. -/
theorem length_position {n : Nat} (hn : n < 2147483648) :
    (printedDigits 10 n 0).length < indexTurns := by
  have hlength := length_printedDigits 10 n 0
  have hdigits := @length_someDigits 10 n (by decide) (by omega)
  have hturns : 10 < indexTurns := by decide
  omega

/-- **A cursor escape sets the position**, and is taken up to its end mark. -/
theorem setPosition_text {str : Bytes} {i x y : Nat} {t : Tty} (hx : x < 2147483648)
    (hy : y < 2147483648) (hs : Spells str i (positionText x y)) :
    setPosition str i t = some (i + (printedDigits 10 x 0).length +
      (printedDigits 10 y 0).length + 2, { t with x := x, y := y }) := by
  unfold positionText at hs
  simp only [spells_append, spells_cons] at hs
  obtain ⟨-, hdigitsX, hmarkY, hdigitsY, hend, -⟩ := hs
  have hscanX := scan_denotes (denotes_printedDigits (by decide) x 0) (by omega) hdigitsX hmarkY
    (by decide) (length_position hx)
  have hscanY := scan_denotes (denotes_printedDigits (by decide) y 0) (by omega) hdigitsY hend
    (by decide) (length_position hy)
  unfold setPosition
  simp only [hscanX, hscanY, Option.bind_eq_bind, Option.bind_some, Option.pure_def,
    Option.some.injEq, Prod.mk.injEq, and_true]
  omega

/-- **Cursor escapes round-trip**: the text that `printf` makes of a position below 2^31 is taken
whole, sets the position, and draws nothing but the cursor. -/
theorem position_read (g : VbeModeInfo) (t : Tty) (e : Stack) (after : Bytes)
    (hx : (e.args 0).toNat < 2147483648) (hy : (e.args 1).toNat < 2147483648) :
    ∃ out, printf e positionFormat = some out ∧
      terminalWrite g t (cstr out after) out.length = some (out.length,
        drawCursor g t.showCursor { t with x := (e.args 0).toNat, y := (e.args 1).toNat }) := by
  refine ⟨_, printf_positionFormat e hx hy, ?_⟩
  have hspell := spells_cstr (0x1b :: positionText (e.args 0).toNat (e.args 1).toNat) after
  have hlength : (0x1b :: positionText (e.args 0).toNat (e.args 1).toNat).length = 1 +
      (printedDigits 10 (e.args 0).toNat 0).length + (printedDigits 10 (e.args 1).toNat 0).length
        + 2 + 1 := by
    unfold positionText
    simp only [List.length_cons, List.length_append, List.length_nil]
    omega
  obtain ⟨hescape, hposition⟩ := spells_cons.1 hspell
  have hX : cstr (0x1b :: positionText (e.args 0).toNat (e.args 1).toNat) after 1 = char 'X' :=
    (spells_cons.1 hposition).1
  have hset : escape g (cstr (0x1b :: positionText (e.args 0).toNat (e.args 1).toNat) after) 1 t
      = _ := (if_pos hX).trans (setPosition_text hx hy hposition)
  rw [hlength]
  exact terminalWrite_single hescape hset

/-- The position 640, 7. -/
def onePosition : Stack := ⟨fun k => if k = 0 then 640 else 7, fun _ => [], fun _ => 0⟩

/-- The theorem for that position. -/
theorem position_read_640 : ∃ out, printf onePosition positionFormat = some out ∧
    terminalWrite mode1024 freshTerminal (cstr out fun _ => 0) out.length = some (out.length,
      drawCursor mode1024 true { freshTerminal with x := 640, y := 7 }) :=
  position_read mode1024 freshTerminal onePosition (fun _ => 0) (by decide) (by decide)

end AmateurOs.Terminal
