/-
# The documented grammar

The comment at the head of `calculator.c` gives the grammar:

    sum     := product | sum '+' product | sum '-' product ;
    product := term | product '*' term | product '/' term ;
    term    := '-' term | '(' sum ')' | number ;

An `Expr` is a tree of it, `Printed` says which texts spell the tree (blanks may stand before
every token), and its `value` is counted in 32 bits.  A tree is `Clean` when none of the numbers
that the parser compares with `ERROR` is -1 and no divisor is 0.

**The calculator evaluates the grammar** (`parseSum_printed`): a text that spells a clean tree is
read as its value, to the end.  A text is a `Sentence` when it spells any tree.
-/
import AmateurOs.Calculator.Reading

namespace AmateurOs.Calculator

/-! ## 1. Trees -/

/-- The left-hand sides of the grammar. -/
inductive Symbol where
  | sum
  | product
  | term

/-- The trees of the grammar, a constructor for each alternative. -/
inductive Expr : Symbol → Type where
  | product (p : Expr .product) : Expr .sum
  | plus (s : Expr .sum) (p : Expr .product) : Expr .sum
  | minus (s : Expr .sum) (p : Expr .product) : Expr .sum
  | term (t : Expr .term) : Expr .product
  | times (p : Expr .product) (t : Expr .term) : Expr .product
  | divided (p : Expr .product) (t : Expr .term) : Expr .product
  | negate (t : Expr .term) : Expr .term
  | parens (s : Expr .sum) : Expr .term
  | number (n : Nat) : Expr .term

/-- The value of a tree in wrap-around arithmetic of 32 bits, division truncating toward zero. -/
def Expr.value : {a : Symbol} → Expr a → Int32
  | _, .product p => p.value
  | _, .plus s p => s.value + p.value
  | _, .minus s p => s.value - p.value
  | _, .term t => t.value
  | _, .times p t => p.value * t.value
  | _, .divided p t => p.value / t.value
  | _, .negate t => -t.value
  | _, .parens s => s.value
  | _, .number n => Int32.ofNat n

/-- No operand of a binary operator and no parenthesised sum is -1, and no divisor is 0. -/
def Expr.Clean : {a : Symbol} → Expr a → Prop
  | _, .product p => p.Clean
  | _, .plus s p => (s.Clean ∧ s.value ≠ error) ∧ p.Clean ∧ p.value ≠ error
  | _, .minus s p => (s.Clean ∧ s.value ≠ error) ∧ p.Clean ∧ p.value ≠ error
  | _, .term t => t.Clean
  | _, .times p t => (p.Clean ∧ p.value ≠ error) ∧ t.Clean ∧ t.value ≠ error
  | _, .divided p t => (p.Clean ∧ p.value ≠ error) ∧ (t.Clean ∧ t.value ≠ error) ∧ t.value ≠ 0
  | _, .negate t => t.Clean
  | _, .parens s => s.Clean ∧ s.value ≠ error
  | _, .number _ => True

/-! ## 2. Texts -/

/-- The number that decimal digits denote. -/
def decimal (digits : List UInt8) : Nat :=
  digits.foldl (fun n c => n * 10 + (c.toNat - 0x30)) 0

/-- `k` blanks. -/
def blanks (k : Nat) : List UInt8 := List.replicate k 0x20

/-- The texts of a tree, with any number of blanks before every token. -/
inductive Printed : {a : Symbol} → Expr a → List UInt8 → Prop where
  | product {p w} : Printed p w → Printed (.product p) w
  | plus {s p w u} (k : Nat) : Printed s w → Printed p u →
      Printed (.plus s p) (w ++ blanks k ++ 0x2b :: u)
  | minus {s p w u} (k : Nat) : Printed s w → Printed p u →
      Printed (.minus s p) (w ++ blanks k ++ 0x2d :: u)
  | term {t w} : Printed t w → Printed (.term t) w
  | times {p t w u} (k : Nat) : Printed p w → Printed t u →
      Printed (.times p t) (w ++ blanks k ++ 0x2a :: u)
  | divided {p t w u} (k : Nat) : Printed p w → Printed t u →
      Printed (.divided p t) (w ++ blanks k ++ 0x2f :: u)
  | negate {t w} (k : Nat) : Printed t w → Printed (.negate t) (blanks k ++ 0x2d :: w)
  | parens {s w} (k j : Nat) : Printed s w →
      Printed (.parens s) (blanks k ++ 0x28 :: w ++ blanks j ++ [0x29])
  | number {c digits} (k : Nat) : (∀ d ∈ c :: digits, isDigit d) →
      Printed (.number (decimal (c :: digits))) (blanks k ++ c :: digits)

/-- A sentence of the grammar, blanks behind the last token included. -/
def Sentence (w : List UInt8) : Prop :=
  ∃ (e : Expr .sum) (u : List UInt8) (k : Nat), Printed e u ∧ w = u ++ blanks k

/-! ## 3. Blanks and digits -/

theorem skipBlanks_blanks (k : Nat) (w : List UInt8) :
    skipBlanks (blanks k ++ w) = skipBlanks w := by
  induction k with
  | zero => rfl
  | succ k ih => exact (if_pos rfl).trans ih

theorem skipBlanks_cons {c : UInt8} (h : c ≠ 0x20) (w : List UInt8) :
    skipBlanks (c :: w) = c :: w := if_neg h

theorem skipBlanks_token {c : UInt8} (h : c ≠ 0x20) (k : Nat) (w : List UInt8) :
    skipBlanks (blanks k ++ c :: w) = c :: w := by
  rw [skipBlanks_blanks, skipBlanks_cons h]

theorem skipBlanks_idem (w : List UInt8) : skipBlanks (skipBlanks w) = skipBlanks w := by
  induction w with
  | nil => rfl
  | cons c w ih =>
    by_cases hc : c = 0x20
    · rw [show skipBlanks (c :: w) = skipBlanks w from if_pos hc, ih]
    · rw [skipBlanks_cons hc, skipBlanks_cons hc]

/-- What comes next is not a digit. -/
def NoDigit (w : List UInt8) : Prop := ∀ c u, w = c :: u → ¬ isDigit c

theorem noDigit_nil : NoDigit [] := fun _ _ h => nomatch h

theorem noDigit_token {c : UInt8} (h : ¬ isDigit c) (k : Nat) (w : List UInt8) :
    NoDigit (blanks k ++ c :: w) := by
  rintro d u hd
  cases k with
  | zero => exact (List.cons.inj hd).1 ▸ h
  | succ k => exact (List.cons.inj hd).1 ▸ (by decide)

theorem isDigit_ne_blank {c : UInt8} (h : isDigit c) : c ≠ 0x20 := by
  rintro rfl
  exact absurd h (by decide)

theorem pushDigit_ofNat (n : Nat) (c : UInt8) :
    pushDigit (Int32.ofNat n) c = Int32.ofNat (n * 10 + (c.toNat - 0x30)) := by
  apply Int32.toBitVec_inj.mp
  simp [pushDigit]

theorem digitLoop_digits {digits r : List UInt8} (h : ∀ d ∈ digits, isDigit d) (hr : NoDigit r)
    (n : Nat) : digitLoop (Int32.ofNat n) (digits ++ r) =
      (Int32.ofNat (digits.foldl (fun n c => n * 10 + (c.toNat - 0x30)) n), r) := by
  induction digits generalizing n with
  | nil =>
    cases r with
    | nil => rfl
    | cons c r => exact if_neg (hr c r rfl)
  | cons c digits ih =>
    rw [List.cons_append, digitLoop, if_pos (h c List.mem_cons_self), pushDigit_ofNat]
    exact ih (fun d hd => h d (List.mem_cons_of_mem _ hd)) _

theorem digitLoop_number {c : UInt8} {digits r : List UInt8} (h : ∀ d ∈ c :: digits, isDigit d)
    (hr : NoDigit r) :
    digitLoop (pushDigit 0 c) (digits ++ r) = (Int32.ofNat (decimal (c :: digits)), r) := by
  have hloop := digitLoop_digits (fun d hd => h d (List.mem_cons_of_mem _ hd)) hr
    (0 * 10 + (c.toNat - 0x30))
  rwa [← pushDigit_ofNat, show Int32.ofNat 0 = 0 from rfl] at hloop

/-! ## 4. Operators in front of a loop -/

@[simp] theorem matchChar_self (c : UInt8) (w : List UInt8) : matchChar c (c :: w) = some w :=
  if_pos rfl

theorem matchChar_ne {c d : UInt8} (h : c ≠ d) (w : List UInt8) : matchChar c (d :: w) = none :=
  if_neg h

/-- The character of an operator. -/
def Operator.char : Operator → UInt8
  | .plus => 0x2b
  | .minus => 0x2d
  | .times => 0x2a
  | .divided => 0x2f

def Operator.level : Operator → Level
  | .plus | .minus => .sum
  | .times | .divided => .product

theorem nextOperator_char (o : Operator) (k : Nat) (w : List UInt8) :
    nextOperator o.level (skipBlanks (blanks k ++ o.char :: w)) = some (o, w) := by
  rw [skipBlanks_token (by cases o <;> decide)]
  cases o <;> rfl

/-- The loop of a level leaves what begins with anything but its operators. -/
theorem nextOperator_token {l : Level} {c : UInt8} (hblank : c ≠ 0x20)
    (h : ∀ o : Operator, o.level = l → o.char ≠ c) (k : Nat) (w : List UInt8) :
    nextOperator l (skipBlanks (blanks k ++ c :: w)) = none := by
  rw [skipBlanks_token hblank]
  cases l with
  | sum =>
    have hplus : matchChar 0x2b (c :: w) = none := matchChar_ne (h .plus rfl) w
    have hminus : matchChar 0x2d (c :: w) = none := matchChar_ne (h .minus rfl) w
    rw [nextOperator, hplus, hminus]
    rfl
  | product =>
    have htimes : matchChar 0x2a (c :: w) = none := matchChar_ne (h .times rfl) w
    have hdivided : matchChar 0x2f (c :: w) = none := matchChar_ne (h .divided rfl) w
    rw [nextOperator, htimes, hdivided]
    rfl

theorem nextOperator_nil (l : Level) : nextOperator l (skipBlanks []) = none := by
  cases l <;> rfl

/-- Blanks in front of a loop do not matter. -/
theorem reads_loop_skipBlanks {l : Level} {n v : Int32} {w r : List UInt8}
    (h : Reads (.loop l n) w v r) : Reads (.loop l n) (skipBlanks w) v r := by
  cases h with
  | stop hnext =>
    have hstop := @Reads.stop l n (skipBlanks w) (by rwa [skipBlanks_idem])
    rwa [skipBlanks_idem] at hstop
  | operatorError hnext hread => exact .operatorError (by rwa [skipBlanks_idem]) hread
  | operator hnext hread hne hzero hloop =>
    exact .operator (by rwa [skipBlanks_idem]) hread hne hzero hloop

/-! ## 5. A printed tree is read as its value -/

/-- **The text `w` is read as `x`, whatever follows it**, as a symbol's texts are: in front of a
rest that does not continue the last number, and for a product or a sum, with the loop that takes
the rest from `x` on. -/
def ReadAs : Symbol → List UInt8 → Int32 → Prop
  | .term, w, x => ∀ r, NoDigit r → Reads .term (w ++ r) x r
  | .product, w, x => x ≠ error → ∀ r, NoDigit r → ∀ v r', Reads (.loop .product x) r v r' →
      Reads (.chain .product) (w ++ r) v r'
  | .sum, w, x => x ≠ error → ∀ r, NoDigit r → nextOperator .product (skipBlanks r) = none →
      ∀ v r', Reads (.loop .sum x) r v r' → Reads (.chain .sum) (w ++ r) v r'

theorem readAs_product {w : List UInt8} {x : Int32} (h : ReadAs .product w x) :
    ReadAs .sum w x := by
  intro hne r hdigit hnext v r' hloop
  exact .chain (h hne r hdigit x _ (.stop hnext)) hne (reads_loop_skipBlanks hloop)

theorem readAs_term {w : List UInt8} {x : Int32} (h : ReadAs .term w x) : ReadAs .product w x :=
  fun hne r hdigit _ _ hloop => .chain (h r hdigit) hne hloop

/-- An operator of a sum between two texts. -/
theorem readAs_sum {o : Operator} (ho : o.level = .sum) {w u : List UInt8} {x y : Int32} (k : Nat)
    (hw : ReadAs .sum w x) (hx : x ≠ error) (hu : ReadAs .product u y) (hy : y ≠ error) :
    ReadAs .sum (w ++ blanks k ++ o.char :: u) (o.apply x y) := by
  intro _ r hdigit hnext v r' hloop
  rw [List.append_assoc, List.append_assoc]
  have hproduct : Reads (.chain .product) (u ++ r) y (skipBlanks r) :=
    hu hy r hdigit y _ (.stop hnext)
  refine hw hx _ (noDigit_token (by cases o <;> decide) k _)
    (nextOperator_token (by cases o <;> decide) ?_ k _) v r' ?_
  · rintro o' ho' heq
    revert ho ho' heq
    cases o <;> cases o' <;> decide
  · refine .operator (ho ▸ nextOperator_char o k _) hproduct hy ?_ (reads_loop_skipBlanks hloop)
    rintro rfl
    exact absurd ho (by decide)

/-- An operator of a product between two texts. -/
theorem readAs_factor {o : Operator} (ho : o.level = .product) {w u : List UInt8} {x y : Int32}
    (k : Nat) (hw : ReadAs .product w x) (hx : x ≠ error) (hu : ReadAs .term u y) (hy : y ≠ error)
    (hzero : o = .divided → y ≠ 0) :
    ReadAs .product (w ++ blanks k ++ o.char :: u) (o.apply x y) := by
  intro _ r hdigit v r' hloop
  rw [List.append_assoc, List.append_assoc]
  refine hw hx _ (noDigit_token (by cases o <;> decide) k _) v r' ?_
  exact .operator (ho ▸ nextOperator_char o k _) (hu r hdigit) hy hzero hloop

theorem readAs_negate {w : List UInt8} {x : Int32} (k : Nat) (h : ReadAs .term w x) :
    ReadAs .term (blanks k ++ 0x2d :: w) (-x) := by
  intro r hdigit
  rw [List.append_assoc, List.cons_append]
  have hskip := skipBlanks_token (c := 0x2d) (by decide) k (w ++ r)
  refine .negate ?_ ?_ (h r hdigit)
  · rw [hskip]
    exact matchChar_ne (by decide) _
  · rw [hskip]
    exact matchChar_self _ _

theorem readAs_parens {w : List UInt8} {x : Int32} (k j : Nat) (h : ReadAs .sum w x)
    (hne : x ≠ error) : ReadAs .term (blanks k ++ 0x28 :: w ++ blanks j ++ [0x29]) x := by
  intro r _
  simp only [List.append_assoc, List.cons_append, List.nil_append]
  have hskip := skipBlanks_token (c := 0x29) (by decide) j r
  have hclosed : ∀ l, nextOperator l (skipBlanks (blanks j ++ 0x29 :: r)) = none :=
    fun l => nextOperator_token (by decide) (fun o _ => by cases o <;> decide) j r
  have hsum := h hne _ (noDigit_token (by decide) j r) (hclosed .product) x _ (.stop (hclosed .sum))
  refine .parens ?_ hsum hne ?_
  · rw [skipBlanks_token (by decide)]
    exact matchChar_self _ _
  · rw [skipBlanks_idem, hskip]
    exact matchChar_self _ _

theorem readAs_number {c : UInt8} {digits : List UInt8} (k : Nat)
    (h : ∀ d ∈ c :: digits, isDigit d) :
    ReadAs .term (blanks k ++ c :: digits) (Int32.ofNat (decimal (c :: digits))) := by
  intro r hdigit
  rw [List.append_assoc, List.cons_append]
  have hc := h c List.mem_cons_self
  have hread := Reads.number (skipBlanks_token (isDigit_ne_blank hc) k (digits ++ r)) hc
  rwa [digitLoop_number h hdigit] at hread

/-- **A text that spells a clean tree is read as its value.** -/
theorem readAs_of_printed {a : Symbol} {e : Expr a} {w : List UInt8} (h : Printed e w)
    (hclean : e.Clean) : ReadAs a w e.value := by
  induction h with
  | product _ ih => exact readAs_product (ih hclean)
  | plus k _ _ ih ih' =>
    obtain ⟨⟨hs, hx⟩, hp, hy⟩ := hclean
    exact readAs_sum (o := .plus) rfl k (ih hs) hx (ih' hp) hy
  | minus k _ _ ih ih' =>
    obtain ⟨⟨hs, hx⟩, hp, hy⟩ := hclean
    exact readAs_sum (o := .minus) rfl k (ih hs) hx (ih' hp) hy
  | term _ ih => exact readAs_term (ih hclean)
  | times k _ _ ih ih' =>
    obtain ⟨⟨hp, hx⟩, ht, hy⟩ := hclean
    exact readAs_factor (o := .times) rfl k (ih hp) hx (ih' ht) hy nofun
  | divided k _ _ ih ih' =>
    obtain ⟨⟨hp, hx⟩, ⟨ht, hy⟩, hzero⟩ := hclean
    exact readAs_factor (o := .divided) rfl k (ih hp) hx (ih' ht) hy fun _ => hzero
  | negate k _ ih => exact readAs_negate k (ih hclean)
  | parens k j _ ih => exact readAs_parens k j (ih hclean.1) hclean.2
  | number k hdigits => exact readAs_number k hdigits

/-! ## 6. The theorem -/

/-- **The calculator evaluates the grammar.**  On a line that spells a tree in which nothing that
is compared with `ERROR` is -1 and no divisor is 0, `parse_sum` returns the tree's value with
nothing left of the line. -/
theorem parseSum_printed (line : Line) (e : Expr .sum) (h : Printed e line.chars)
    (hclean : e.Clean) (hne : e.value ≠ error) (fuel : Nat) (hfuel : fuelFor line.chars ≤ fuel) :
    parseSum fuel line.chars = .ok (e.value, []) := by
  have hread := readAs_of_printed h hclean hne [] noDigit_nil (nextOperator_nil _) _ _
    (.stop (nextOperator_nil _))
  rw [List.append_nil] at hread
  exact parse_of_reads hread fuel hfuel

/-- The sum in `-(1+ 2)*3`. -/
def onePlusTwo : Expr .sum := .plus (.product (.term (.number 1))) (.term (.number 2))

/-- The tree of `-(1+ 2)*3`. -/
def minusNine : Expr .sum := .product (.times (.term (.negate (.parens onePlusTwo))) (.number 3))

/-- `-(1+ 2)*3`, as it stands in the buffer. -/
def minusNineLine : Line :=
  ⟨[0x2d, 0x28, 0x31, 0x2b, 0x20, 0x32, 0x29, 0x2a, 0x33], by decide⟩

theorem printed_digit {c : UInt8} (k : Nat) (h : isDigit c) :
    Printed (.number (c.toNat - 0x30)) (blanks k ++ [c]) := by
  have hnumber := @Printed.number c [] k
    fun d hd => List.mem_singleton.mp hd ▸ h
  rwa [show decimal [c] = c.toNat - 0x30 by simp [decimal]] at hnumber

theorem minusNine_printed : Printed minusNine minusNineLine.chars :=
  have h : Printed onePlusTwo [0x31, 0x2b, 0x20, 0x32] :=
    .plus 0 (.product (.term (@printed_digit 0x31 0 rfl))) (.term (@printed_digit 0x32 1 rfl))
  .product (.times 0 (.term (.negate 0 (.parens 0 0 h))) (@printed_digit 0x33 0 rfl))

theorem minusNine_clean : minusNine.Clean :=
  have h : onePlusTwo.Clean := ⟨⟨trivial, by decide⟩, trivial, by decide⟩
  ⟨⟨⟨h, by decide⟩, by decide⟩, trivial, by decide⟩

theorem parseSum_minusNine :
    parseSum (fuelFor minusNineLine.chars) minusNineLine.chars = .ok (-9, []) :=
  parseSum_printed minusNineLine minusNine minusNine_printed minusNine_clean (by decide) _
    (Nat.le_refl _)

end AmateurOs.Calculator
