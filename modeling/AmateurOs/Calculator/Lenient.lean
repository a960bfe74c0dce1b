/-
# The grammar that the calculator accepts

The parser's functions follow the documented grammar, and their in-band error gives a meaning to
texts that the grammar does not have.  `Takes` is the grammar with these added, rule by rule over
the text: what a PART of a line begins with, how that ends (`Outcome`), and the text behind it.

* An operand breaks off where no term begins (`missing`), where a parenthesis is not closed
  (`unclosed`), and where a number in it is -1 that the parser compares with `ERROR`.
* What breaks off ends everything around it (`opened`, `firstEnds`, `nextEnds`, `wholeEnds`), up to
  a minus sign: behind that it is taken for the number 1 (`negated`).  The flag of `Takes` says
  whether this happened.
* A division by zero ends everything.

**The parser does with a text what the rules say** (`parse_of_takes`), **and the rules cover every
text** (`takes_of_parse`).
-/
import AmateurOs.Calculator.Grammar

namespace AmateurOs.Calculator

/-! ## 1. Outcomes and parts -/

/-- How the reading of a part ends. -/
inductive Outcome where
  | value (num : Int32)
  | breaksOff
  | dividesByZero

/-- What an outcome that ends the part around it makes of that part. -/
def Outcome.ends : Outcome → Option Outcome
  | .value num => if num = error then some .breaksOff else none
  | .breaksOff => some .breaksOff
  | .dividesByZero => some .dividesByZero

/-- What the parser returns for an outcome. -/
def Outcome.result (r : List UInt8) : Outcome → Parsed
  | .value num => .ok (num, r)
  | .breaksOff => .ok (error, r)
  | .dividesByZero => .error .divideError

/-- A term, the operands of a level as far as they have been read, or all of them. -/
inductive Part where
  | term
  | operands (l : Level)
  | whole (l : Level)

/-- The parts that the operators of a level stand between. -/
def Level.part : Level → Part
  | .sum => .whole .product
  | .product => .term

/-! ## 2. The rules -/

/-- No operator of the level comes next. -/
def NoOperator (l : Level) (w : List UInt8) : Prop :=
  ∀ o : Operator, o.level = l → (skipBlanks w).head? ≠ some o.char

/-- Nothing that begins a term comes next. -/
def NoTerm (w : List UInt8) : Prop :=
  ∀ c, (skipBlanks w).head? = some c → c ≠ 0x28 ∧ c ≠ 0x2d ∧ ¬ isDigit c

/-- What a text begins with, how that ends, and what is behind it. -/
inductive Takes : Bool → Part → List UInt8 → Outcome → List UInt8 → Prop
  | number {w c digits r} : skipBlanks w = c :: digits ++ r → (∀ d ∈ c :: digits, isDigit d) →
      NoDigit r → Takes false .term w (.value (Int32.ofNat (decimal (c :: digits)))) r
  | missing {w} : NoTerm w → Takes false .term w .breaksOff (skipBlanks w)
  | parens {b w u x r} : skipBlanks w = 0x28 :: u → Takes b (.whole .sum) u (.value x) (0x29 :: r) →
      x ≠ error → Takes b .term w (.value x) r
  | unclosed {b w u x r} : skipBlanks w = 0x28 :: u → Takes b (.whole .sum) u (.value x) r →
      x ≠ error → r.head? ≠ some 0x29 → Takes b .term w .breaksOff r
  | opened {b w u o q r} : skipBlanks w = 0x28 :: u → Takes b (.whole .sum) u o r →
      o.ends = some q → Takes b .term w q r
  | negate {b w u x r} : skipBlanks w = 0x2d :: u → Takes b .term u (.value x) r →
      Takes b .term w (.value (-x)) r
  | negated {b w u r} : skipBlanks w = 0x2d :: u → Takes b .term u .breaksOff r →
      Takes true .term w (.value 1) r
  | negateZero {b w u r} : skipBlanks w = 0x2d :: u → Takes b .term u .dividesByZero r →
      Takes b .term w .dividesByZero r
  | first {b l w x r} : Takes b l.part w (.value x) r → x ≠ error →
      Takes b (.operands l) w (.value x) r
  | firstEnds {b l w o q r} : Takes b l.part w o r → o.ends = some q →
      Takes b (.operands l) w q r
  | next {b b' w x r u y r'} {o : Operator} : Takes b (.operands o.level) w (.value x) r →
      skipBlanks r = o.char :: u → Takes b' o.level.part u (.value y) r' → y ≠ error →
      (o = .divided → y ≠ 0) → Takes (b || b') (.operands o.level) w (.value (o.apply x y)) r'
  | nextEnds {b b' w x r u p q r'} {o : Operator} : Takes b (.operands o.level) w (.value x) r →
      skipBlanks r = o.char :: u → Takes b' o.level.part u p r' → p.ends = some q →
      Takes (b || b') (.operands o.level) w q r'
  | divideByZero {b b' w x r u r'} : Takes b (.operands .product) w (.value x) r →
      skipBlanks r = 0x2f :: u → Takes b' .term u (.value 0) r' →
      Takes (b || b') (.operands .product) w .dividesByZero r'
  | whole {b l w x r} : Takes b (.operands l) w (.value x) r → NoOperator l r →
      Takes b (.whole l) w (.value x) (skipBlanks r)
  | wholeEnds {b l w o r} : Takes b (.operands l) w o r → (∀ x, o ≠ .value x) →
      Takes b (.whole l) w o r

/-! ## 3. What comes next -/

theorem nextOperator_eq_some {l : Level} {o : Operator} {w u : List UInt8} :
    nextOperator l w = some (o, u) ↔ o.level = l ∧ w = o.char :: u := by
  cases l <;>
  · simp only [nextOperator, Option.or_eq_some_iff, Option.map_eq_some_iff, Option.map_eq_none_iff,
      matchChar_eq_some, Prod.mk.injEq]
    constructor
    · rintro (⟨_, rfl, rfl, rfl⟩ | ⟨-, _, rfl, rfl, rfl⟩) <;> exact ⟨rfl, rfl⟩
    · rintro ⟨ho, rfl⟩
      revert ho
      cases o <;> simp [Operator.level, Operator.char, matchChar]

theorem nextOperator_eq_none {l : Level} {w : List UInt8} :
    nextOperator l (skipBlanks w) = none ↔ NoOperator l w := by
  rw [Option.eq_none_iff_forall_not_mem]
  constructor
  · intro hnone o ho hhead
    obtain ⟨u, hu⟩ := List.head?_eq_some_iff.mp hhead
    exact hnone (o, u) (nextOperator_eq_some.mpr ⟨ho, hu⟩)
  · rintro hno ⟨o, u⟩ hnext
    obtain ⟨ho, hu⟩ := nextOperator_eq_some.mp hnext
    exact hno o ho (by rw [hu, List.head?_cons])

theorem matchChar_eq_none {c : UInt8} {w : List UInt8} :
    matchChar c w = none ↔ w.head? ≠ some c := by
  cases w with
  | nil => simp [matchChar]
  | cons d w => simp [matchChar, eq_comm]

/-- Where no term begins, the parser finds a number missing. -/
theorem parseTerm_missing {w : List UInt8} (h : NoTerm w) (fuel : Nat) :
    parseTerm (fuel + 1) w = .ok (error, skipBlanks w) := by
  have hopen : matchChar 0x28 (skipBlanks w) = none :=
    matchChar_eq_none.mpr fun hhead => (h _ hhead).1 rfl
  have hminus : matchChar 0x2d (skipBlanks w) = none :=
    matchChar_eq_none.mpr fun hhead => (h _ hhead).2.1 rfl
  have hnone : ∀ c digits, skipBlanks w = c :: digits → ¬ isDigit c :=
    fun c digits hskip => (h c (by rw [hskip, List.head?_cons])).2.2
  simp only [parseTerm, hopen, hminus, parseNumber_missing hnone]

theorem parseTerm_digits {c : UInt8} {w digits r : List UInt8}
    (hskip : skipBlanks w = c :: digits ++ r) (h : ∀ d ∈ c :: digits, isDigit d) (hr : NoDigit r)
    (fuel : Nat) :
    parseTerm (fuel + 1) w = .ok (Int32.ofNat (decimal (c :: digits)), r) := by
  have hc := h c List.mem_cons_self
  simp only [parseTerm, hskip, List.cons_append, number_matches hc (d := 0x28) (by decide),
    number_matches hc (d := 0x2d) (by decide), parseNumber_number hc, digitLoop_number h hr]

/-- The digits in front of a text. -/
theorem exists_digits (w : List UInt8) :
    ∃ digits r, w = digits ++ r ∧ (∀ d ∈ digits, isDigit d) ∧ NoDigit r := by
  refine ⟨w.takeWhile isDigit, w.dropWhile isDigit, List.takeWhile_append_dropWhile.symm,
    fun d hd => List.all_eq_true.mp List.all_takeWhile d hd, fun c u hdrop hc => ?_⟩
  have hhead := List.head?_dropWhile_not isDigit w
  rw [hdrop] at hhead
  simp [hc] at hhead

theorem skipBlanks_length_lt {c : UInt8} {w u : List UInt8} (h : skipBlanks w = c :: u) :
    u.length < w.length := by
  have := skipBlanks_length w
  rw [h, List.length_cons] at this
  omega

/-- A part leaves no more than it was given. -/
theorem Takes.length_le {b : Bool} {p : Part} {w r : List UInt8} {o : Outcome}
    (h : Takes b p w o r) : r.length ≤ w.length := by
  induction h with
  | @number w c digits r hskip _ _ =>
    have := skipBlanks_length w
    rw [hskip, List.length_append] at this
    omega
  | missing _ => exact skipBlanks_length _
  | parens hskip _ _ ih =>
    have := skipBlanks_length_lt hskip
    rw [List.length_cons] at ih
    omega
  | unclosed hskip _ _ _ ih | opened hskip _ _ ih | negate hskip _ ih | negated hskip _ ih
  | negateZero hskip _ ih =>
    have := skipBlanks_length_lt hskip
    omega
  | first _ _ ih | firstEnds _ _ ih | wholeEnds _ _ ih => exact ih
  | next _ hskip _ _ _ ih ih' | nextEnds _ hskip _ _ ih ih' | divideByZero _ hskip _ ih ih' =>
    have := skipBlanks_length_lt hskip
    omega
  | whole _ _ ih => exact Nat.le_trans (skipBlanks_length _) ih

/-! ## 4. The parser follows the rules -/

/-- The stage of the parser that reads a part. -/
def Part.stage : Part → Stage
  | .term => .term
  | .operands l | .whole l => .chain l

/-- The parser does with the text what the outcome says.  Behind some operands of a level it is in
the loop of the level, with the number that they come to. -/
def Follows : Part → List UInt8 → Outcome → List UInt8 → Prop
  | .operands l, w, .value x, r => ∀ fuel, (Stage.chain l).need w.length ≤ fuel →
      ∃ left, (Stage.loop l x).need r.length ≤ left ∧
        parse fuel (.chain l) w = parse left (.loop l x) r
  | p, w, o, r => ∀ fuel, p.stage.need w.length ≤ fuel → parse fuel p.stage w = o.result r

theorem follows_operand {l : Level} {w r : List UInt8} {o : Outcome} (h : Follows l.part w o r)
    (fuel : Nat) (hfuel : l.operand.need w.length ≤ fuel) :
    parse fuel l.operand w = o.result r := by
  cases l <;> exact h fuel hfuel

theorem follows_operands {l : Level} {w r : List UInt8} {o : Outcome} (ho : ∀ x, o ≠ .value x)
    (h : ∀ fuel, (Stage.chain l).need w.length ≤ fuel → parse fuel (.chain l) w = o.result r) :
    Follows (.operands l) w o r := by
  cases o with
  | value x => exact absurd rfl (ho x)
  | breaksOff => exact h
  | dividesByZero => exact h

theorem Outcome.ends_ne {o q : Outcome} (h : o.ends = some q) (x : Int32) : q ≠ .value x := by
  cases o with
  | value y =>
    simp only [Outcome.ends, Option.ite_none_right_eq_some, Option.some.injEq] at h
    exact h.2 ▸ nofun
  | breaksOff => exact Option.some.inj h ▸ nofun
  | dividesByZero => exact Option.some.inj h ▸ nofun

/-- What ends an operand is handed on. -/
theorem Outcome.result_ends {o q : Outcome} (h : o.ends = some q) (r : List UInt8)
    (f : Int32 × List UInt8 → Parsed) :
    ((o.result r).bind fun x => if x.1 = error then .ok (error, x.2) else f x) = q.result r := by
  cases o with
  | value y =>
    simp only [Outcome.ends, Option.ite_none_right_eq_some, Option.some.injEq] at h
    obtain ⟨rfl, rfl⟩ := h
    rfl
  | breaksOff => exact Option.some.inj h ▸ rfl
  | dividesByZero => exact Option.some.inj h ▸ rfl

theorem parse_opened {w u : List UInt8} (h : skipBlanks w = 0x28 :: u) (fuel : Nat) :
    parse (fuel + 1) .term w = (parse fuel (.chain .sum) u).bind fun x =>
      if x.1 = error then .ok (error, x.2)
      else match matchChar 0x29 (skipBlanks x.2) with
        | some r => .ok (x.1, r)
        | none => .ok (error, skipBlanks x.2) := by
  simp only [parse, parseTerm, h, matchChar_self]
  rfl

theorem parse_minus {w u : List UInt8} (h : skipBlanks w = 0x2d :: u) (fuel : Nat) :
    parse (fuel + 1) .term w = (parse fuel .term u).bind fun x => .ok (-x.1, x.2) := by
  have hopen : matchChar 0x28 (0x2d :: u) = none := matchChar_ne (by decide) u
  simp only [parse, parseTerm, h, hopen, matchChar_self]
  rfl

theorem takes_whole_rest {b : Bool} {l : Level} {w r : List UInt8} {x : Int32}
    (h : Takes b (.whole l) w (.value x) r) : skipBlanks r = r := by
  cases h with
  | whole _ _ => exact skipBlanks_idem _
  | wholeEnds _ hne => exact absurd rfl (hne x)

/-- **What a text begins with, the parser makes of it.** -/
theorem parse_of_takes {b : Bool} {p : Part} {w r : List UInt8} {o : Outcome}
    (h : Takes b p w o r) : Follows p w o r := by
  -- Behind a character, a stage that is not the start of a level has calls left for any other.
  have hbehind : ∀ (s t : Stage) {c : UInt8} {w u : List UInt8} {fuel : Nat},
      skipBlanks w = c :: u → (∀ l, s ≠ .chain l) → s.need w.length ≤ fuel + 1 →
      ∀ m ≤ u.length, t.need m ≤ fuel := fun s t c w u fuel hskip hs hfuel m hm => by
    have := need_lt s t (Nat.lt_of_le_of_lt hm (skipBlanks_length_lt hskip)) hs
    omega
  induction h with
  | number hskip hdigits hr =>
    intro fuel hfuel
    obtain ⟨fuel, rfl⟩ := succ_of_need hfuel
    exact parseTerm_digits hskip hdigits hr fuel
  | missing hnone =>
    intro fuel hfuel
    obtain ⟨fuel, rfl⟩ := succ_of_need hfuel
    exact parseTerm_missing hnone fuel
  | @parens b w u x r hskip _ hne ih =>
    intro fuel hfuel
    obtain ⟨fuel, rfl⟩ := succ_of_need hfuel
    have hsum : parse fuel (.chain .sum) u = (Outcome.value x).result (0x29 :: r) :=
      ih fuel (hbehind .term (.chain .sum) hskip nofun hfuel _ (Nat.le_refl _))
    rw [Part.stage, parse_opened hskip, hsum]
    simp only [Outcome.result, Except.bind, if_neg hne, skipBlanks_cons (c := 0x29) (by decide),
      matchChar_self]
  | @unclosed b w u x r hskip htakes hne hclose ih =>
    intro fuel hfuel
    obtain ⟨fuel, rfl⟩ := succ_of_need hfuel
    have hsum : parse fuel (.chain .sum) u = (Outcome.value x).result r :=
      ih fuel (hbehind .term (.chain .sum) hskip nofun hfuel _ (Nat.le_refl _))
    rw [Part.stage, parse_opened hskip, hsum]
    simp only [Outcome.result, Except.bind, if_neg hne, takes_whole_rest htakes,
      matchChar_eq_none.mpr hclose]
  | @opened b w u o q r hskip _ hends ih =>
    intro fuel hfuel
    obtain ⟨fuel, rfl⟩ := succ_of_need hfuel
    have hsum : parse fuel (.chain .sum) u = o.result r :=
      ih fuel (hbehind .term (.chain .sum) hskip nofun hfuel _ (Nat.le_refl _))
    rw [Part.stage, parse_opened hskip, hsum]
    exact Outcome.result_ends hends _ _
  | @negate b w u x r hskip _ ih =>
    intro fuel hfuel
    obtain ⟨fuel, rfl⟩ := succ_of_need hfuel
    have hterm : parse fuel .term u = (Outcome.value x).result r :=
      ih fuel (hbehind .term .term hskip nofun hfuel _ (Nat.le_refl _))
    rw [Part.stage, parse_minus hskip, hterm]
    rfl
  | @negated b w u r hskip _ ih =>
    intro fuel hfuel
    obtain ⟨fuel, rfl⟩ := succ_of_need hfuel
    have hterm : parse fuel .term u = Outcome.breaksOff.result r :=
      ih fuel (hbehind .term .term hskip nofun hfuel _ (Nat.le_refl _))
    have hone : -error = 1 := by decide
    rw [Part.stage, parse_minus hskip, hterm]
    simp only [Outcome.result, Except.bind, hone]
  | @negateZero b w u r hskip _ ih =>
    intro fuel hfuel
    obtain ⟨fuel, rfl⟩ := succ_of_need hfuel
    have hterm : parse fuel .term u = Outcome.dividesByZero.result r :=
      ih fuel (hbehind .term .term hskip nofun hfuel _ (Nat.le_refl _))
    rw [Part.stage, parse_minus hskip, hterm]
    rfl
  | @first b l w x r hoperand hne ih =>
    intro fuel hfuel
    obtain ⟨fuel, rfl⟩ := succ_of_need hfuel
    have hlt := need_operand_lt l w.length
    have hloop := need_loop_lt l x hoperand.length_le
    refine ⟨fuel, by omega, ?_⟩
    rw [parse_chain, follows_operand ih fuel (by omega)]
    exact if_neg hne
  | @firstEnds b l w o q r _ hends ih =>
    refine follows_operands (Outcome.ends_ne hends) fun fuel hfuel => ?_
    obtain ⟨fuel, rfl⟩ := succ_of_need hfuel
    have hlt := need_operand_lt l w.length
    rw [parse_chain, follows_operand ih fuel (by omega)]
    exact Outcome.result_ends hends _ _
  | @next b b' w x r u y r' o _ hskip hoperand hne hzero ih ih' =>
    intro fuel hfuel
    obtain ⟨left, hleft, heq⟩ := ih fuel hfuel
    obtain ⟨left, rfl⟩ := succ_of_need hleft
    refine ⟨left, hbehind (.loop o.level x) _ hskip nofun hleft _ hoperand.length_le,
      heq.trans ?_⟩
    rw [parse_loop, nextOperator_eq_some.mpr ⟨rfl, hskip⟩]
    simp only [follows_operand ih' left
      (hbehind (.loop o.level x) _ hskip nofun hleft _ (Nat.le_refl _)), Outcome.result,
      Except.bind, if_neg hne]
    rw [show o.execute x y = .ok (o.apply x y) from if_neg fun h => hzero h.1 h.2]
  | @nextEnds b b' w x r u p q r' o _ hskip _ hends ih ih' =>
    refine follows_operands (Outcome.ends_ne hends) fun fuel hfuel => ?_
    obtain ⟨left, hleft, heq⟩ := ih fuel hfuel
    obtain ⟨left, rfl⟩ := succ_of_need hleft
    rw [heq, parse_loop, nextOperator_eq_some.mpr ⟨rfl, hskip⟩]
    simp only [follows_operand ih' left
      (hbehind (.loop o.level x) _ hskip nofun hleft _ (Nat.le_refl _))]
    exact Outcome.result_ends hends _ _
  | @divideByZero b b' w x r u r' _ hskip _ ih ih' =>
    intro fuel hfuel
    obtain ⟨left, hleft, heq⟩ := ih fuel hfuel
    obtain ⟨left, rfl⟩ := succ_of_need hleft
    have hnext : nextOperator .product (skipBlanks r) = some (.divided, u) :=
      nextOperator_eq_some.mpr ⟨rfl, hskip⟩
    rw [Part.stage, heq, parse_loop, hnext]
    simp only [follows_operand (l := .product) ih' left
      (hbehind (.loop .product x) _ hskip nofun hleft _ (Nat.le_refl _))]
    rfl
  | whole _ hnone ih =>
    intro fuel hfuel
    obtain ⟨left, hleft, heq⟩ := ih fuel hfuel
    obtain ⟨left, rfl⟩ := succ_of_need hleft
    rw [Part.stage, heq, parse_loop, nextOperator_eq_none.mpr hnone]
    rfl
  | @wholeEnds b l w o r _ hne ih =>
    cases o with
    | value x => exact absurd rfl (hne x)
    | breaksOff => exact ih
    | dividesByZero => exact ih

/-! ## 5. The rules cover every text -/

/-- Some rule says what the parser does with the text.  Of the loop of a level this is said of the
whole level, from the operands in front of the loop on. -/
def Covered : Stage → List UInt8 → Parsed → Prop
  | .term, w, result => ∃ b o r, Takes b .term w o r ∧ result = o.result r
  | .chain l, w, result => ∃ b o r, Takes b (.whole l) w o r ∧ result = o.result r
  | .loop l x, w, result => ∀ b v, Takes b (.operands l) v (.value x) w →
      ∃ b o r, Takes b (.whole l) v o r ∧ result = o.result r

theorem covered_operand {l : Level} {w : List UInt8} {result : Parsed}
    (h : Covered l.operand w result) : ∃ b o r, Takes b l.part w o r ∧ result = o.result r := by
  cases l <;> exact h

/-- An outcome either ends the part around it or is a number that the parser goes on with. -/
theorem Outcome.ends_or (o : Outcome) :
    (∃ q, o.ends = some q) ∨ ∃ x, o = .value x ∧ x ≠ error := by
  cases o with
  | value x =>
    by_cases hx : x = error
    · exact .inl ⟨.breaksOff, if_pos hx⟩
    · exact .inr ⟨x, rfl, hx⟩
  | breaksOff => exact .inl ⟨_, rfl⟩
  | dividesByZero => exact .inl ⟨_, rfl⟩

theorem bind_ne_left {α β : Type} {x : Except Fault α} {f : α → Except Fault β} {e : Fault}
    (h : x.bind f ≠ .error e) : x ≠ .error e := by
  rintro rfl
  exact h rfl

/-- **Every text is covered by the rules**, where the parser returns. -/
theorem takes_of_parse {fuel : Nat} {s : Stage} {w : List UInt8}
    (h : parse fuel s w ≠ .error .outOfFuel) : Covered s w (parse fuel s w) := by
  induction fuel generalizing s w with
  | zero => exact absurd (parse_zero s w) h
  | succ fuel ih =>
    cases s with
    | chain l =>
      rw [parse_chain] at h ⊢
      obtain ⟨b, o, r, htakes, heq⟩ := covered_operand (ih (bind_ne_left h))
      rw [heq] at h ⊢
      obtain ⟨q, hends⟩ | ⟨x, rfl, hx⟩ := o.ends_or
      · refine ⟨b, q, r, .wholeEnds (.firstEnds htakes hends) (Outcome.ends_ne hends), ?_⟩
        exact Outcome.result_ends hends _ _
      · simp only [Outcome.result, Except.bind, if_neg hx] at h ⊢
        exact ih h b w (.first htakes hx)
    | loop l x =>
      intro b v hfront
      rw [parse_loop] at h ⊢
      rcases hnext : nextOperator l (skipBlanks w) with _ | ⟨o, u⟩
      · exact ⟨b, .value x, _, .whole hfront (nextOperator_eq_none.mp hnext), rfl⟩
      · rw [hnext] at h
        simp only at h ⊢
        obtain ⟨rfl, hskip⟩ := nextOperator_eq_some.mp hnext
        obtain ⟨b', p, r, htakes, heq⟩ := covered_operand (ih (bind_ne_left h))
        rw [heq] at h ⊢
        obtain ⟨q, hends⟩ | ⟨y, rfl, hy⟩ := p.ends_or
        · refine ⟨b || b', q, r, .wholeEnds (.nextEnds hfront hskip htakes hends)
            (Outcome.ends_ne hends), ?_⟩
          exact Outcome.result_ends hends _ _
        · simp only [Outcome.result, Except.bind, if_neg hy] at h ⊢
          by_cases hzero : o = .divided ∧ y = 0
          · obtain ⟨rfl, rfl⟩ := hzero
            exact ⟨b || b', .dividesByZero, r, .wholeEnds (.divideByZero hfront hskip htakes)
              fun _ hvalue => Outcome.noConfusion hvalue, rfl⟩
          · rw [Operator.execute, if_neg hzero] at h ⊢
            exact ih h _ v (.next hfront hskip htakes hy fun ho hm => hzero ⟨ho, hm⟩)
    | term =>
      rcases hskip : skipBlanks w with _ | ⟨c, u⟩
      · have hnone : NoTerm w := fun d hd => by rw [hskip] at hd; cases hd
        exact ⟨false, .breaksOff, _, .missing hnone, parseTerm_missing hnone fuel⟩
      by_cases hopen : c = 0x28
      · subst hopen
        rw [parse_opened hskip] at h ⊢
        obtain ⟨b, o, r, htakes, heq⟩ := ih (s := .chain .sum) (bind_ne_left h)
        rw [heq] at h ⊢
        obtain ⟨q, hends⟩ | ⟨x, rfl, hx⟩ := o.ends_or
        · exact ⟨b, q, r, .opened hskip htakes hends, Outcome.result_ends hends _ _⟩
        · simp only [Outcome.result, Except.bind, if_neg hx, takes_whole_rest htakes]
          rcases hclose : matchChar 0x29 r with _ | r'
          · exact ⟨b, .breaksOff, r, .unclosed hskip htakes hx (matchChar_eq_none.mp hclose), rfl⟩
          · obtain rfl := matchChar_eq_some.mp hclose
            exact ⟨b, .value x, r', .parens hskip htakes hx, rfl⟩
      by_cases hminus : c = 0x2d
      · subst hminus
        rw [parse_minus hskip] at h ⊢
        obtain ⟨b, o, r, htakes, heq⟩ := ih (s := .term) (bind_ne_left h)
        rw [heq] at h ⊢
        cases o with
        | value x => exact ⟨b, .value (-x), r, .negate hskip htakes, rfl⟩
        | breaksOff =>
          have hone : -error = 1 := by decide
          exact ⟨true, .value 1, r, .negated hskip htakes, congrArg (fun x => Except.ok (x, r)) hone⟩
        | dividesByZero => exact ⟨b, .dividesByZero, r, .negateZero hskip htakes, rfl⟩
      by_cases hdigit : isDigit c
      · obtain ⟨digits, r, rfl, hdigits, hr⟩ := exists_digits u
        have hall : ∀ d ∈ c :: digits, isDigit d := List.forall_mem_cons.mpr ⟨hdigit, hdigits⟩
        exact ⟨false, _, r, .number hskip hall hr, parseTerm_digits hskip hall hr fuel⟩
      · have hnone : NoTerm w := fun d hd => by
          rw [hskip, List.head?_cons] at hd
          exact Option.some.inj hd ▸ ⟨hopen, hminus, hdigit⟩
        exact ⟨false, .breaksOff, _, .missing hnone, parseTerm_missing hnone fuel⟩

end AmateurOs.Calculator
