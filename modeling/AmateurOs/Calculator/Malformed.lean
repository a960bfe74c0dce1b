/-
# What is not a sentence

`parse_buffer` prints a number or `Syntax Error`, and it decides by the number alone.  Three kinds
of malformed lines get past it:

* a line that begins with a sentence and goes on with something else (`Trailing`): `parse_sum`
  returns where no operator comes, and nobody looks at what is left;
* a line with a minus sign in front of an operand that breaks off (`Negated`): the `ERROR` of the
  operand is negated like a number, and 1 is not `ERROR`;
* a line that is divided by zero before anything breaks off (`Divides`): it prints nothing at all.

The first kind is one of the documented grammar, the others of the lenient one, which differs from
it by what breaks off (`spelled_of_takes`, `takes_of_printed`).

**The calculator reports a malformed line exactly when it is of none of these kinds**
(`rejects_iff`).
-/
import AmateurOs.Calculator.Lenient

namespace AmateurOs.Calculator

/-! ## 1. The parser returns -/

theorem bind_ne {α β : Type} {x : Except Fault α} {f : α → Except Fault β} {e : Fault}
    (hx : x ≠ .error e) (hf : ∀ a, x = .ok a → f a ≠ .error e) : x.bind f ≠ .error e := by
  cases x with
  | error e' => exact fun h => hx (congrArg _ (Except.error.inj h))
  | ok a => exact hf a rfl

theorem execute_ne (o : Operator) (a b : Int32) : o.execute a b ≠ .error .outOfFuel := by
  unfold Operator.execute
  split <;> simp

/-- **Every stage ends within the calls it needs.** -/
theorem parse_returns {fuel : Nat} {s : Stage} {w : List UInt8} (h : s.need w.length ≤ fuel) :
    parse fuel s w ≠ .error .outOfFuel := by
  induction fuel generalizing s w with
  | zero => exact absurd h (Nat.not_le.mpr (need_pos s w.length))
  | succ fuel ih =>
    cases s with
    | chain l =>
      rw [parse_chain]
      refine bind_ne (ih (by have := need_operand_lt l w.length; omega)) fun x hx => ?_
      split
      · simp
      · have := need_loop_lt l x.1 (reads_of_parse hx).length_le
        exact ih (by omega)
    | loop l n =>
      rw [parse_loop]
      split
      · next o w' hnext =>
        have hlt := nextOperator_length hnext
        have hneed : ∀ t : Stage, ∀ m ≤ w'.length, t.need m ≤ fuel := fun t m hm => by
          have := need_lt (.loop l n) t (Nat.lt_of_le_of_lt hm hlt) (by simp)
          omega
        refine bind_ne (ih (hneed _ _ (Nat.le_refl _))) fun x hx => ?_
        split
        · simp
        · exact bind_ne (execute_ne o n x.1) fun m _ =>
            ih (hneed _ _ (reads_of_parse hx).length_le)
      · simp
    | term =>
      have hneed : ∀ (t : Stage) {c w'}, matchChar c (skipBlanks w) = some w' →
          t.need w'.length ≤ fuel := fun t c w' hmatch => by
        have := need_lt .term t (matchChar_length hmatch) (by simp)
        omega
      change parseTerm (fuel + 1) w ≠ _
      unfold parseTerm
      split
      · next w' hopen =>
        refine bind_ne (ih (s := .chain .sum) (hneed _ hopen)) fun ⟨n, r⟩ _ => ?_
        by_cases hn : n = error
        · simp [hn]
        · rcases hclose : matchChar 0x29 (skipBlanks r) with _ | r' <;> simp [hn, hclose]
      · split
        · next w' hminus =>
          exact bind_ne (ih (s := .term) (hneed _ hminus)) fun x _ => by simp
        · simp

/-! ## 2. Trees in the lenient grammar -/

/-- None of the numbers in the tree that the parser compares with `ERROR` is -1, and no divisor is
0.  Compared are the operands of an operator and the sums in parentheses; what a level comes to
behind some of its operands is not. -/
def Expr.Passes : {a : Symbol} → Expr a → Prop
  | _, .product p => p.Passes ∧ p.value ≠ error
  | _, .plus s p => s.Passes ∧ p.Passes ∧ p.value ≠ error
  | _, .minus s p => s.Passes ∧ p.Passes ∧ p.value ≠ error
  | _, .term t => t.Passes ∧ t.value ≠ error
  | _, .times p t => p.Passes ∧ t.Passes ∧ t.value ≠ error
  | _, .divided p t => p.Passes ∧ t.Passes ∧ t.value ≠ error ∧ t.value ≠ 0
  | _, .negate t => t.Passes
  | _, .parens s => s.Passes ∧ s.value ≠ error
  | _, .number _ => True

/-- The last character is a digit. -/
def EndsInDigit (w : List UInt8) : Prop := ∃ d, w.getLast? = some d ∧ isDigit d

/-- The symbol whose trees a part spells. -/
def Level.symbol : Level → Symbol
  | .sum => .sum
  | .product => .product

def Part.symbol : Part → Symbol
  | .term => .term
  | .operands l | .whole l => l.symbol

/-- What cannot come behind a part. -/
def Part.Stops : Part → List UInt8 → Prop
  | .term, _ | .operands .product, _ => True
  | .whole .product, r | .operands .sum, r => NoOperator .product r
  | .whole .sum, r => NoOperator .product r ∧ NoOperator .sum r

/-- The text begins with a tree of the part, and `r` is behind it. -/
def Spelled (p : Part) (w : List UInt8) (x : Int32) (r : List UInt8) : Prop :=
  ∃ (e : Expr p.symbol) (u : List UInt8) (k : Nat), Printed e u ∧ w = u ++ (blanks k ++ r) ∧
    e.Passes ∧ e.value = x ∧ (EndsInDigit u → NoDigit (blanks k ++ r)) ∧ p.Stops r

theorem exists_blanks (w : List UInt8) : ∃ k, w = blanks k ++ skipBlanks w := by
  induction w with
  | nil => exact ⟨0, rfl⟩
  | cons c w ih =>
    by_cases hc : c = 0x20
    · obtain ⟨k, hk⟩ := ih
      refine ⟨k + 1, ?_⟩
      rw [hc, show skipBlanks (0x20 :: w) = skipBlanks w from if_pos rfl]
      exact congrArg (List.cons 0x20) hk
    · exact ⟨0, (skipBlanks_cons hc w).symm⟩

theorem blanks_add (k j : Nat) (w : List UInt8) :
    blanks (k + j) ++ w = blanks k ++ (blanks j ++ w) := by
  rw [blanks, List.replicate_add, List.append_assoc]
  rfl

theorem noOperator_token {l : Level} {c : UInt8} (hblank : c ≠ 0x20)
    (h : ∀ o : Operator, o.level = l → o.char ≠ c) (k : Nat) (w : List UInt8) :
    NoOperator l (blanks k ++ c :: w) :=
  nextOperator_eq_none.mp (nextOperator_token hblank h k w)

theorem noOperator_skipBlanks {l : Level} {w : List UInt8} :
    NoOperator l (skipBlanks w) ↔ NoOperator l w := by
  rw [NoOperator, skipBlanks_idem, NoOperator]

theorem noOperator_blanks {l : Level} {k : Nat} {w : List UInt8} :
    NoOperator l (blanks k ++ w) ↔ NoOperator l w := by
  rw [NoOperator, skipBlanks_blanks, NoOperator]

theorem endsInDigit_behind {v u : List UInt8} {c : UInt8} (hc : ¬ isDigit c) :
    EndsInDigit (v ++ c :: u) ↔ EndsInDigit u := by
  simp only [EndsInDigit, List.getLast?_append, List.getLast?_cons]
  cases u.getLast? with
  | none => simp [hc]
  | some d => simp

theorem endsInDigit_digits {v digits : List UInt8} {c : UInt8}
    (h : ∀ d ∈ c :: digits, isDigit d) : EndsInDigit (v ++ c :: digits) := by
  have hlast := List.getLast?_eq_some_getLast (List.cons_ne_nil c digits)
  exact ⟨_, by rw [List.getLast?_append, hlast, Option.some_or], h _ (List.getLast_mem _)⟩

/-- Two spelled texts with an operator between them. -/
theorem spelled_next {w r u r' : List UInt8} {x y : Int32} {o : Operator}
    (h : Spelled (.operands o.level) w x r) (hskip : skipBlanks r = o.char :: u)
    (h' : Spelled o.level.part u y r') (hne : y ≠ error) (hzero : o = .divided → y ≠ 0) :
    Spelled (.operands o.level) w (o.apply x y) r' := by
  obtain ⟨e, v, k, hprint, rfl, hpasses, rfl, -, -⟩ := h
  obtain ⟨e', v', k', hprint', rfl, hpasses', rfl, hdigit, hstops⟩ := h'
  obtain ⟨j, hj⟩ := exists_blanks r
  have htext : v ++ (blanks k ++ r) = (v ++ blanks (k + j) ++ o.char :: v') ++ (blanks k' ++ r') := by
    rw [hj, hskip]
    simp [blanks_add]
  have hdigit : EndsInDigit (v ++ blanks (k + j) ++ o.char :: v') → NoDigit (blanks k' ++ r') :=
    fun hend => hdigit ((endsInDigit_behind (by cases o <;> decide)).mp hend)
  cases o with
  | plus => exact ⟨.plus e e', _, k', .plus _ hprint hprint', htext, ⟨hpasses, hpasses', hne⟩, rfl,
      hdigit, hstops⟩
  | minus => exact ⟨.minus e e', _, k', .minus _ hprint hprint', htext, ⟨hpasses, hpasses', hne⟩,
      rfl, hdigit, hstops⟩
  | times => exact ⟨.times e e', _, k', .times _ hprint hprint', htext, ⟨hpasses, hpasses', hne⟩,
      rfl, hdigit, trivial⟩
  | divided => exact ⟨.divided e e', _, k', .divided _ hprint hprint', htext,
      ⟨hpasses, hpasses', hne, hzero rfl⟩, rfl, hdigit, trivial⟩

/-- Without a minus sign in front of what broke off, the lenient grammar is the documented one. -/
theorem spelled_of_takes {b : Bool} {p : Part} {w r : List UInt8} {o : Outcome}
    (h : Takes b p w o r) (hb : b = false) {x : Int32} (ho : o = .value x) : Spelled p w x r := by
  induction h generalizing x with
  | @number w c digits r hskip hdigits hr =>
    obtain ⟨k, hk⟩ := exists_blanks w
    refine ⟨.number _, _, 0, .number k hdigits, ?_, trivial, Outcome.value.inj ho, fun _ => hr,
      trivial⟩
    rw [hk, hskip, List.append_assoc]
    rfl
  | @parens b w u y r hskip _ hne ih =>
    obtain ⟨e, v, j, hprint, rfl, hpasses, rfl, -, -⟩ := ih hb rfl
    obtain ⟨k, hk⟩ := exists_blanks w
    refine ⟨.parens e, _, 0, .parens k j hprint, ?_, ⟨hpasses, hne⟩, Outcome.value.inj ho, ?_,
      trivial⟩
    · rw [hk, hskip]
      simp [blanks]
    · rintro ⟨d, hd, hdigit⟩
      rw [List.getLast?_concat] at hd
      exact absurd (Option.some.inj hd ▸ hdigit) (by decide)
  | @negate b w u y r hskip _ ih =>
    obtain ⟨e, v, j, hprint, rfl, hpasses, rfl, hdigit, -⟩ := ih hb rfl
    obtain ⟨k, hk⟩ := exists_blanks w
    refine ⟨.negate e, _, j, .negate k hprint, ?_, hpasses, Outcome.value.inj ho,
      fun hend => hdigit ((endsInDigit_behind (by decide)).mp hend), trivial⟩
    rw [hk, hskip, List.append_assoc]
    rfl
  | @first b l w y r _ hne ih =>
    obtain ⟨e, v, k, hprint, rfl, hpasses, rfl, hdigit, hstops⟩ := ih hb rfl
    cases l with
    | sum => exact ⟨.product e, v, k, .product hprint, rfl, ⟨hpasses, hne⟩, Outcome.value.inj ho,
        hdigit, hstops⟩
    | product => exact ⟨.term e, v, k, .term hprint, rfl, ⟨hpasses, hne⟩, Outcome.value.inj ho,
        hdigit, trivial⟩
  | next _ hskip _ hne hzero ih ih' =>
    obtain ⟨rfl, rfl⟩ := Bool.or_eq_false_iff.mp hb
    exact Outcome.value.inj ho ▸ spelled_next (ih rfl rfl) hskip (ih' rfl rfl) hne hzero
  | @whole b l w y r _ hnone ih =>
    obtain ⟨e, v, k, hprint, rfl, hpasses, rfl, hdigit, hstops⟩ := ih hb rfl
    obtain ⟨j, hj⟩ := exists_blanks r
    rw [hj, ← blanks_add] at hdigit
    refine ⟨e, v, k + j, hprint, ?_, hpasses, Outcome.value.inj ho, hdigit, ?_⟩
    · rw [blanks_add, ← hj]
    · cases l with
      | sum => exact ⟨noOperator_skipBlanks.mpr hstops, noOperator_skipBlanks.mpr hnone⟩
      | product => exact noOperator_skipBlanks.mpr hnone
  | missing | unclosed | divideByZero | negateZero => exact nomatch ho
  | negated => exact nomatch hb
  | opened _ _ hends | firstEnds _ hends | nextEnds _ _ _ hends =>
    exact absurd ho (Outcome.ends_ne hends x)
  | wholeEnds _ hne => exact absurd ho (hne x)

/-- The text of a symbol's tree is taken as the number `x`. -/
def TakenAs : Symbol → List UInt8 → Int32 → Prop
  | .term, u, x => ∀ r, (EndsInDigit u → NoDigit r) → Takes false .term (u ++ r) (.value x) r
  | .product, u, x => ∀ r, (EndsInDigit u → NoDigit r) →
      Takes false (.operands .product) (u ++ r) (.value x) r
  | .sum, u, x => ∀ r, (EndsInDigit u → NoDigit r) → NoOperator .product r →
      Takes false (.operands .sum) (u ++ r) (.value x) (skipBlanks r)

/-- An operator of a sum between two texts. -/
theorem takenAs_sum {o : Operator} (ho : o.level = .sum) {w u : List UInt8} {x y : Int32} (k : Nat)
    (hw : TakenAs .sum w x) (hu : TakenAs .product u y) (hy : y ≠ error) :
    TakenAs .sum (w ++ blanks k ++ o.char :: u) (o.apply x y) := by
  intro r hdigit hnone
  rw [List.append_assoc, List.append_assoc]
  have hoperand := Takes.whole
    (hu r fun hend => hdigit ((endsInDigit_behind (by cases o <;> decide)).mpr hend)) hnone
  have hfront := hw (blanks k ++ o.char :: (u ++ r))
    (fun _ => noDigit_token (by cases o <;> decide) k _)
    (noOperator_token (by cases o <;> decide) (by
      rintro o' ho' heq
      revert ho ho' heq
      cases o <;> cases o' <;> decide) k _)
  have hskip := skipBlanks_token (c := o.char) (by cases o <;> decide) k (u ++ r)
  rw [hskip] at hfront
  have hskip : skipBlanks (o.char :: (u ++ r)) = o.char :: (u ++ r) := by
    rw [← hskip, skipBlanks_idem]
  rw [← ho] at hfront ⊢
  refine Takes.next hfront hskip ?_ hy fun hdivided => absurd ho (by rw [hdivided]; decide)
  rwa [ho]

/-- An operator of a product between two texts. -/
theorem takenAs_product {o : Operator} (ho : o.level = .product) {w u : List UInt8} {x y : Int32}
    (k : Nat) (hw : TakenAs .product w x) (hu : TakenAs .term u y) (hy : y ≠ error)
    (hzero : o = .divided → y ≠ 0) :
    TakenAs .product (w ++ blanks k ++ o.char :: u) (o.apply x y) := by
  intro r hdigit
  rw [List.append_assoc, List.append_assoc]
  have hoperand := hu r fun hend => hdigit ((endsInDigit_behind (by cases o <;> decide)).mpr hend)
  have hfront := hw (blanks k ++ o.char :: (u ++ r))
    (fun _ => noDigit_token (by cases o <;> decide) k _)
  have hskip := skipBlanks_token (c := o.char) (by cases o <;> decide) k (u ++ r)
  rw [← ho] at hfront ⊢
  refine Takes.next hfront hskip ?_ hy hzero
  rwa [ho]

/-- **The lenient grammar has the trees of the documented one.** -/
theorem takes_of_printed {a : Symbol} {e : Expr a} {u : List UInt8} (h : Printed e u)
    (hpasses : e.Passes) : TakenAs a u e.value := by
  induction h with
  | product _ ih =>
    exact fun r hdigit hnone => .first (l := .sum) (.whole (ih hpasses.1 r hdigit) hnone) hpasses.2
  | plus k _ _ ih ih' =>
    exact takenAs_sum (o := .plus) rfl k (ih hpasses.1) (ih' hpasses.2.1) hpasses.2.2
  | minus k _ _ ih ih' =>
    exact takenAs_sum (o := .minus) rfl k (ih hpasses.1) (ih' hpasses.2.1) hpasses.2.2
  | term _ ih => exact fun r hdigit => .first (l := .product) (ih hpasses.1 r hdigit) hpasses.2
  | times k _ _ ih ih' =>
    exact takenAs_product (o := .times) rfl k (ih hpasses.1) (ih' hpasses.2.1) hpasses.2.2 nofun
  | divided k _ _ ih ih' =>
    obtain ⟨hp, ht, hne, hzero⟩ := hpasses
    exact takenAs_product (o := .divided) rfl k (ih hp) (ih' ht) hne fun _ => hzero
  | @negate t u k _ ih =>
    intro r hdigit
    rw [List.append_assoc]
    refine .negate (skipBlanks_token (by decide) k (u ++ r)) (ih hpasses r fun hend => ?_)
    exact hdigit ((endsInDigit_behind (by decide)).mpr hend)
  | @parens s u k j _ ih =>
    intro r _
    have hclosed : ∀ l, NoOperator l (blanks j ++ 0x29 :: r) :=
      fun l => noOperator_token (by decide) (fun o _ => by cases o <;> decide) j r
    have hsum := Takes.whole (ih hpasses.1 (blanks j ++ 0x29 :: r)
      (fun _ => noDigit_token (by decide) j r) (hclosed .product))
      (noOperator_skipBlanks.mpr (hclosed .sum))
    rw [skipBlanks_idem, skipBlanks_token (by decide)] at hsum
    simp only [List.append_assoc, List.cons_append, List.nil_append]
    exact .parens (skipBlanks_token (by decide) k _) hsum hpasses.2
  | @number c digits k hdigits =>
    intro r hdigit
    have hc := isDigit_ne_blank (hdigits c List.mem_cons_self)
    rw [List.append_assoc]
    exact .number (skipBlanks_token hc k _) hdigits (hdigit (endsInDigit_digits hdigits))

/-! ## 3. Malformed lines that get past -/

/-- The line begins with a sentence whose value is another one than -1, and goes on where neither
the last number nor an operator does. -/
def Trailing (w : List UInt8) : Prop :=
  ∃ (e : Expr .sum) (u r : List UInt8), Printed e u ∧ w = u ++ r ∧ e.Passes ∧ e.value ≠ error ∧
    (EndsInDigit u → NoDigit r) ∧ NoOperator .product r ∧ NoOperator .sum r

/-- The line begins with a sum of another value than -1, in which an operand that breaks off
behind a minus sign is the number 1. -/
def Negated (w : List UInt8) : Prop :=
  ∃ x r, Takes true (.whole .sum) w (.value x) r ∧ x ≠ error

/-- The line divides by zero before anything breaks off. -/
def Divides (w : List UInt8) : Prop := ∃ b r, Takes b (.whole .sum) w .dividesByZero r

theorem trailing_iff {w : List UInt8} :
    Trailing w ↔ ∃ x r, Takes false (.whole .sum) w (.value x) r ∧ x ≠ error := by
  constructor
  · rintro ⟨e, u, r, hprint, rfl, hpasses, hne, hdigit, hproduct, hsum⟩
    exact ⟨e.value, _, .whole (takes_of_printed hprint hpasses r hdigit hproduct)
      (noOperator_skipBlanks.mpr hsum), hne⟩
  · rintro ⟨x, r, htakes, hne⟩
    obtain ⟨e, u, k, hprint, heq, hpasses, rfl, hdigit, hproduct, hsum⟩ :=
      spelled_of_takes htakes rfl rfl
    exact ⟨e, u, blanks k ++ r, hprint, heq, hpasses, hne, hdigit, noOperator_blanks.mpr hproduct,
      noOperator_blanks.mpr hsum⟩

/-- Every line is covered by the rules, which say what is printed. -/
theorem takes_line (line : Line) : ∃ b o r, Takes b (.whole .sum) line.chars o r ∧
    parseSum (fuelFor line.chars) line.chars = o.result r :=
  @takes_of_parse (fuelFor line.chars) (.chain .sum) line.chars (parse_returns (Nat.le_refl _))

/-- A line that is taken as a number, or that divides by zero, is not reported. -/
theorem takes_not_reported {line : Line} {b : Bool} {o : Outcome} {r : List UInt8}
    (h : Takes b (.whole .sum) line.chars o r) (hends : o.ends ≠ some .breaksOff) :
    parseBuffer line ≠ .ok .syntaxError := by
  have hsum : parseSum (fuelFor line.chars) line.chars = o.result r :=
    parse_of_takes h _ (Nat.le_refl _)
  simp only [parseBuffer, hsum]
  cases o with
  | value x =>
    have hx : x ≠ error := fun hx => hends (if_pos hx)
    simp [Outcome.result, hx, bind, Except.bind]
  | breaksOff => exact absurd rfl hends
  | dividesByZero => simp [Outcome.result, bind, Except.bind]

/-- **A malformed line is rejected**: it prints `Syntax Error`. -/
def Rejects (line : Line) : Prop :=
  ¬ Sentence line.chars → parseBuffer line = .ok .syntaxError

/-- `Syntax Error` is printed for all lines but those of the three kinds. -/
theorem syntaxError_iff (line : Line) : parseBuffer line = .ok .syntaxError ↔
    ¬ (Trailing line.chars ∨ Negated line.chars ∨ Divides line.chars) := by
  constructor
  · rintro hreport (htrailing | ⟨x, r, htakes, hne⟩ | ⟨b, r, htakes⟩)
    · obtain ⟨x, r, htakes, hne⟩ := trailing_iff.mp htrailing
      exact takes_not_reported htakes (by simp [Outcome.ends, hne]) hreport
    · exact takes_not_reported htakes (by simp [Outcome.ends, hne]) hreport
    · exact takes_not_reported htakes (by simp [Outcome.ends]) hreport
  · intro hnone
    obtain ⟨b, o, r, htakes, hsum⟩ := takes_line line
    simp only [parseBuffer, hsum]
    cases o with
    | value x =>
      by_cases hx : x = error
      · simp [Outcome.result, hx, bind, Except.bind]
      · refine absurd ?_ hnone
        cases b with
        | false => exact .inl (trailing_iff.mpr ⟨x, r, htakes, hx⟩)
        | true => exact .inr (.inl ⟨x, r, htakes, hx⟩)
    | breaksOff => rfl
    | dividesByZero => exact absurd (.inr (.inr ⟨b, r, htakes⟩)) hnone

/-! ## 4. The theorem -/

/-- **Exactly the malformed lines that begin with a sentence, negate what broke off or divide by
zero are not rejected.** -/
theorem rejects_iff (line : Line) : Rejects line ↔ Sentence line.chars ∨
    ¬ (Trailing line.chars ∨ Negated line.chars ∨ Divides line.chars) := by
  rw [← syntaxError_iff]
  exact or_iff_not_imp_left.symm

/-- Every sentence has a digit in it. -/
theorem printed_digit_mem {a : Symbol} {e : Expr a} {w : List UInt8} (h : Printed e w) :
    ∃ d ∈ w, isDigit d := by
  induction h with
  | product _ ih | term _ ih => exact ih
  | plus k _ _ ih | minus k _ _ ih | times k _ _ ih | divided k _ _ ih =>
    obtain ⟨d, hd, hdigit⟩ := ih
    exact ⟨d, List.mem_append_left _ (List.mem_append_left _ hd), hdigit⟩
  | negate k _ ih =>
    obtain ⟨d, hd, hdigit⟩ := ih
    exact ⟨d, List.mem_append_right _ (List.mem_cons_of_mem _ hd), hdigit⟩
  | parens k j _ ih =>
    obtain ⟨d, hd, hdigit⟩ := ih
    exact ⟨d, by simp [hd], hdigit⟩
  | number k hdigits => exact ⟨_, List.mem_append_right _ List.mem_cons_self,
      hdigits _ List.mem_cons_self⟩

/-- **A minus sign alone is taken for the number 1.** -/
theorem minus_accepted : ¬ ∀ line, Rejects line := by
  intro hall
  have hnot : ¬ Sentence [0x2d] := by
    rintro ⟨e, u, k, hprint, heq⟩
    obtain ⟨d, hd, hdigit⟩ := printed_digit_mem hprint
    have hmem : d ∈ [(0x2d : UInt8)] := heq ▸ List.mem_append_left _ hd
    obtain rfl := List.mem_singleton.mp hmem
    exact absurd hdigit (by decide)
  exact absurd (hall ⟨[0x2d], by decide⟩ hnot) (by decide)

/-- `1 2` prints 1. -/
example : parseBuffer ⟨[0x31, 0x20, 0x32], by decide⟩ = .ok (.number 1) := by decide

/-- `-(1-2` prints 1 and `(1-2` is reported. -/
example : parseBuffer ⟨[0x2d, 0x28, 0x31, 0x2d, 0x32], by decide⟩ = .ok (.number 1) ∧
    parseBuffer ⟨[0x28, 0x31, 0x2d, 0x32], by decide⟩ = .ok .syntaxError := by decide

end AmateurOs.Calculator
