/-
# What a line is read as

The parser's three functions and their two loops are five STAGES.  A stage reads a text from the
left, comes to a number and leaves a rest.  The rules of a reading are those of the grammar, with
what the file adds to it:

* a reading ends where no rule goes on, and the text behind it is left (`stop`);
* an operand that is not there comes to `error`, and so does a parenthesis that is not closed
  (`missing`, `unclosed`);
* `error` ends every stage around it (`chainError`, `operatorError`, `parensError`), but behind a
  minus sign it is a number like any other (`negate`).

**The reading of a text is what the parser computes** (`parse_of_reads`, `reads_of_parse`), with
`fuelFor` calls at most.  A text without a reading is one whose parser divides by zero.
-/
import AmateurOs.Calculator.Parser

namespace AmateurOs.Calculator

/-! ## 1. Stages and operators -/

/-- The two levels of binary operators. -/
inductive Level where
  | sum
  | product
  deriving DecidableEq

/-- A place of the parser: the start of a level, the loop of a level behind a number, a term. -/
inductive Stage where
  | chain (l : Level)
  | loop (l : Level) (num : Int32)
  | term

/-- What the operators of a level stand between. -/
def Level.operand : Level → Stage
  | .sum => .chain .product
  | .product => .term

inductive Operator where
  | plus
  | minus
  | times
  | divided
  deriving DecidableEq

/-- The number an operator makes. -/
def Operator.apply : Operator → Int32 → Int32 → Int32
  | .plus, a, b => a + b
  | .minus, a, b => a - b
  | .times, a, b => a * b
  | .divided, a, b => a / b

/-- The operator of the level that comes next, and what is behind it. -/
def nextOperator : Level → List UInt8 → Option (Operator × List UInt8)
  | .sum, w => ((matchChar 0x2b w).map (.plus, ·)).or ((matchChar 0x2d w).map (.minus, ·))
  | .product, w => ((matchChar 0x2a w).map (.times, ·)).or ((matchChar 0x2f w).map (.divided, ·))

/-- A reading: the text, the number it comes to, and the rest. -/
inductive Reads : Stage → List UInt8 → Int32 → List UInt8 → Prop
  | chainError {l w r} : Reads l.operand w error r → Reads (.chain l) w error r
  | chain {l w n r v r'} : Reads l.operand w n r → n ≠ error → Reads (.loop l n) r v r' →
      Reads (.chain l) w v r'
  | stop {l n w} : nextOperator l (skipBlanks w) = none → Reads (.loop l n) w n (skipBlanks w)
  | operatorError {l n w o w' r} : nextOperator l (skipBlanks w) = some (o, w') →
      Reads l.operand w' error r → Reads (.loop l n) w error r
  | operator {l n w o w' m r v r'} : nextOperator l (skipBlanks w) = some (o, w') →
      Reads l.operand w' m r → m ≠ error → (o = .divided → m ≠ 0) →
      Reads (.loop l (o.apply n m)) r v r' → Reads (.loop l n) w v r'
  | parens {w w' n r r'} : matchChar 0x28 (skipBlanks w) = some w' → Reads (.chain .sum) w' n r →
      n ≠ error → matchChar 0x29 (skipBlanks r) = some r' → Reads .term w n r'
  | parensError {w w' r} : matchChar 0x28 (skipBlanks w) = some w' →
      Reads (.chain .sum) w' error r → Reads .term w error r
  | unclosed {w w' n r} : matchChar 0x28 (skipBlanks w) = some w' → Reads (.chain .sum) w' n r →
      n ≠ error → matchChar 0x29 (skipBlanks r) = none → Reads .term w error (skipBlanks r)
  | negate {w w' n r} : matchChar 0x28 (skipBlanks w) = none →
      matchChar 0x2d (skipBlanks w) = some w' → Reads .term w' n r → Reads .term w (-n) r
  | number {w c digits} : skipBlanks w = c :: digits → isDigit c →
      Reads .term w (digitLoop (pushDigit 0 c) digits).1 (digitLoop (pushDigit 0 c) digits).2
  | missing {w} : matchChar 0x28 (skipBlanks w) = none → matchChar 0x2d (skipBlanks w) = none →
      (∀ c digits, skipBlanks w = c :: digits → ¬ isDigit c) →
      Reads .term w error (skipBlanks w)

/-! ## 2. The parser by stages -/

/-- The function of a stage. -/
def parse (fuel : Nat) : Stage → List UInt8 → Parsed
  | .chain .sum => parseSum fuel
  | .chain .product => parseProduct fuel
  | .loop .sum num => sumLoop fuel num
  | .loop .product num => productLoop fuel num
  | .term => parseTerm fuel

/-- What an operator does, with the processor's objection to a zero divisor. -/
def Operator.execute (o : Operator) (a b : Int32) : Except Fault Int32 :=
  if o = .divided ∧ b = 0 then .error .divideError else .ok (o.apply a b)

theorem bind_ok {α β : Type} {x : Except Fault α} {f : α → Except Fault β} {b : β}
    (h : x.bind f = .ok b) : ∃ a, x = .ok a ∧ f a = .ok b := by
  cases x with
  | error e => exact absurd h (by simp [Except.bind])
  | ok a => exact ⟨a, rfl, h⟩

theorem parse_zero (s : Stage) (w : List UInt8) : parse 0 s w = .error .outOfFuel := by
  rcases s with (_ | _) | ⟨(_ | _), _⟩ | _ <;> rfl

theorem parse_chain (fuel : Nat) (l : Level) (w : List UInt8) :
    parse (fuel + 1) (.chain l) w = (parse fuel l.operand w).bind fun x =>
      if x.1 = error then .ok (error, x.2) else parse fuel (.loop l x.1) x.2 := by
  cases l <;> rfl

theorem matchChar_eq_some {c : UInt8} {w w' : List UInt8} :
    matchChar c w = some w' ↔ w = c :: w' := by
  cases w with
  | nil => simp [matchChar]
  | cons d w =>
    simp only [matchChar, List.cons.injEq]
    split
    · next h => simp [h]
    · next h => simp [Ne.symm h]

theorem parse_loop (fuel : Nat) (l : Level) (num : Int32) (w : List UInt8) :
    parse (fuel + 1) (.loop l num) w =
      match nextOperator l (skipBlanks w) with
      | some (o, w') => (parse fuel l.operand w').bind fun x =>
          if x.1 = error then .ok (error, x.2)
          else (o.execute num x.1).bind fun n => parse fuel (.loop l n) x.2
      | none => .ok (num, skipBlanks w) := by
  cases l with
  | sum =>
    simp only [parse, sumLoop, nextOperator]
    rcases matchChar 0x2b (skipBlanks w) with _ | w'
    · rcases matchChar 0x2d (skipBlanks w) with _ | w' <;> rfl
    · rfl
  | product =>
    simp only [parse, productLoop, nextOperator]
    rcases matchChar 0x2a (skipBlanks w) with _ | w'
    · rcases matchChar 0x2f (skipBlanks w) with _ | w'
      · rfl
      · simp only [Option.map_none, Option.map_some, Option.none_or, Operator.execute]
        refine congrArg (Except.bind _) (funext fun x => ?_)
        split
        · rfl
        · unfold divide
          simp
          rfl
    · rfl

/-! ## 3. Lengths -/

theorem skipBlanks_length (w : List UInt8) : (skipBlanks w).length ≤ w.length := by
  induction w with
  | nil => exact Nat.le_refl _
  | cons c w ih =>
    unfold skipBlanks
    split
    · exact Nat.le_succ_of_le ih
    · exact Nat.le_refl _

theorem matchChar_length {c : UInt8} {w w' : List UInt8}
    (h : matchChar c (skipBlanks w) = some w') : w'.length < w.length := by
  have hlen := skipBlanks_length w
  rw [matchChar_eq_some.mp h, List.length_cons] at hlen
  exact hlen

theorem nextOperator_length {l : Level} {o : Operator} {w w' : List UInt8}
    (h : nextOperator l (skipBlanks w) = some (o, w')) : w'.length < w.length := by
  cases l <;>
  · simp only [nextOperator, Option.or_eq_some_iff, Option.map_eq_some_iff, Prod.mk.injEq] at h
    obtain ⟨u, hu, -, rfl⟩ | ⟨-, u, hu, -, rfl⟩ := h <;> exact matchChar_length hu

theorem digitLoop_length (num : Int32) (w : List UInt8) :
    (digitLoop num w).2.length ≤ w.length := by
  induction w generalizing num with
  | nil => exact Nat.le_refl _
  | cons c w ih =>
    unfold digitLoop
    split
    · exact Nat.le_succ_of_le (ih _)
    · exact Nat.le_refl _

/-- A reading leaves no more than it was given. -/
theorem Reads.length_le {s : Stage} {w r : List UInt8} {v : Int32} (h : Reads s w v r) :
    r.length ≤ w.length := by
  induction h with
  | chainError _ ih => exact ih
  | chain _ _ _ ih ih' => exact Nat.le_trans ih' ih
  | stop _ => exact skipBlanks_length _
  | operatorError hnext _ ih => exact Nat.le_trans ih (Nat.le_of_lt (nextOperator_length hnext))
  | operator hnext _ _ _ _ ih ih' =>
    exact Nat.le_trans (Nat.le_trans ih' ih) (Nat.le_of_lt (nextOperator_length hnext))
  | parens hopen _ _ hclose ih =>
    have := matchChar_length hopen
    have := matchChar_length hclose
    omega
  | parensError hopen _ ih => exact Nat.le_trans ih (Nat.le_of_lt (matchChar_length hopen))
  | @unclosed w w' n r hopen _ _ _ ih =>
    have := matchChar_length hopen
    have := skipBlanks_length r
    omega
  | negate _ hminus _ ih => exact Nat.le_trans ih (Nat.le_of_lt (matchChar_length hminus))
  | @number w c digits hskip _ =>
    have := skipBlanks_length w
    have := digitLoop_length (pushDigit 0 c) digits
    rw [hskip, List.length_cons] at *
    omega
  | missing _ _ _ => exact skipBlanks_length _

/-! ## 4. The parser computes the reading -/

/-- Calls that a stage can need on a text of `n` characters. -/
def Stage.need : Stage → Nat → Nat
  | .chain .sum, n => 4 * n + 3
  | .chain .product, n => 4 * n + 2
  | .loop _ _, n => 4 * n + 1
  | .term, n => 4 * n + 1

theorem need_pos (s : Stage) (n : Nat) : 0 < s.need n := by
  rcases s with (_ | _) | _ | _ <;> exact Nat.succ_pos _

theorem need_operand_lt (l : Level) (n : Nat) : l.operand.need n < (Stage.chain l).need n := by
  cases l <;> exact Nat.lt_succ_self _

theorem need_loop_lt (l : Level) (num : Int32) {m n : Nat} (h : m ≤ n) :
    (Stage.loop l num).need m < (Stage.chain l).need n := by
  cases l <;> simp only [Stage.need] <;> omega

/-- Behind a character that was taken, every stage needs less than the stage before it. -/
theorem need_lt (s t : Stage) {m n : Nat} (h : m < n) (hs : ∀ l, s ≠ .chain l) :
    t.need m < s.need n := by
  rcases s with l | _ | _
  · exact absurd rfl (hs l)
  all_goals rcases t with (_ | _) | _ | _ <;> simp only [Stage.need] <;> omega

theorem parseNumber_number {c : UInt8} {digits : List UInt8} (h : isDigit c) :
    parseNumber (c :: digits) = digitLoop (pushDigit 0 c) digits := if_pos h

theorem parseNumber_missing {w : List UInt8} (h : ∀ c digits, w = c :: digits → ¬ isDigit c) :
    parseNumber w = (error, w) := by
  cases w with
  | nil => rfl
  | cons c digits => exact if_neg (h c digits rfl)

/-- The text of a number does not begin as any other term. -/
theorem number_matches {c d : UInt8} {w : List UInt8} (h : isDigit c) (hd : d < 0x30) :
    matchChar d (c :: w) = none := by
  refine if_neg fun heq => ?_
  subst heq
  simp only [isDigit, Bool.and_eq_true, decide_eq_true_eq] at h
  exact absurd h.1 (UInt8.not_le.mpr hd)

theorem succ_of_need {s : Stage} {n fuel : Nat} (h : s.need n ≤ fuel) : ∃ k, fuel = k + 1 :=
  Nat.exists_eq_succ_of_ne_zero (Nat.ne_of_gt (Nat.lt_of_lt_of_le (need_pos s n) h))

/-- **What a text is read as, the parser returns.** -/
theorem parse_of_reads {s : Stage} {w r : List UInt8} {v : Int32} (h : Reads s w v r) :
    ∀ fuel, s.need w.length ≤ fuel → parse fuel s w = .ok (v, r) := by
  induction h with
  | @chainError l w r _ ih =>
    intro fuel hfuel
    obtain ⟨fuel, rfl⟩ := succ_of_need hfuel
    have hoperand := ih fuel (by have := need_operand_lt l w.length; omega)
    simp only [parse_chain, hoperand, Except.bind, if_pos]
  | @chain l w n r v r' hread hne _ ih ih' =>
    intro fuel hfuel
    obtain ⟨fuel, rfl⟩ := succ_of_need hfuel
    have hoperand := ih fuel (by have := need_operand_lt l w.length; omega)
    have hloop := ih' fuel (by have := need_loop_lt l n hread.length_le; omega)
    rw [parse_chain, hoperand]
    exact (if_neg hne).trans hloop
  | stop hnext =>
    intro fuel hfuel
    obtain ⟨fuel, rfl⟩ := succ_of_need hfuel
    rw [parse_loop, hnext]
  | @operatorError l n w o w' r hnext _ ih =>
    intro fuel hfuel
    obtain ⟨fuel, rfl⟩ := succ_of_need hfuel
    have hoperand := ih fuel (by
      have := need_lt (.loop l n) l.operand (nextOperator_length hnext) (by simp)
      omega)
    rw [parse_loop, hnext]
    simp only [hoperand, Except.bind, if_pos]
  | @operator l n w o w' m r v r' hnext hread hne hzero _ ih ih' =>
    intro fuel hfuel
    obtain ⟨fuel, rfl⟩ := succ_of_need hfuel
    have hlt := nextOperator_length hnext
    have hoperand := ih fuel (by
      have := need_lt (.loop l n) l.operand hlt (by simp)
      omega)
    have hloop := ih' fuel (by
      have := need_lt (.loop l n) (.loop l (o.apply n m))
        (Nat.lt_of_le_of_lt hread.length_le hlt) (by simp)
      omega)
    have hexecute : o.execute n m = .ok (o.apply n m) :=
      if_neg fun h => hzero h.1 h.2
    rw [parse_loop, hnext]
    simp only [hoperand, Except.bind, if_neg hne, hexecute]
    exact hloop
  | @parens w w' n r r' hopen _ hne hclose ih =>
    intro fuel hfuel
    obtain ⟨fuel, rfl⟩ := succ_of_need hfuel
    have hsum : parseSum fuel w' = .ok (n, r) := ih fuel (by
      have := need_lt .term (.chain .sum) (matchChar_length hopen) (by simp)
      omega)
    simp only [parse, parseTerm, hopen, hsum, bind, Except.bind, if_neg hne, hclose]
  | @parensError w w' r hopen _ ih =>
    intro fuel hfuel
    obtain ⟨fuel, rfl⟩ := succ_of_need hfuel
    have hsum : parseSum fuel w' = .ok (error, r) := ih fuel (by
      have := need_lt .term (.chain .sum) (matchChar_length hopen) (by simp)
      omega)
    simp only [parse, parseTerm, hopen, hsum, bind, Except.bind, if_pos]
  | @unclosed w w' n r hopen _ hne hclose ih =>
    intro fuel hfuel
    obtain ⟨fuel, rfl⟩ := succ_of_need hfuel
    have hsum : parseSum fuel w' = .ok (n, r) := ih fuel (by
      have := need_lt .term (.chain .sum) (matchChar_length hopen) (by simp)
      omega)
    simp only [parse, parseTerm, hopen, hsum, bind, Except.bind, if_neg hne, hclose]
  | @negate w w' n r hopen hminus _ ih =>
    intro fuel hfuel
    obtain ⟨fuel, rfl⟩ := succ_of_need hfuel
    have hterm : parseTerm fuel w' = .ok (n, r) := ih fuel (by
      have := need_lt .term .term (matchChar_length hminus) (by simp)
      omega)
    simp only [parse, parseTerm, hopen, hminus, hterm, bind, Except.bind]
  | @number w c digits hskip hdigit =>
    intro fuel hfuel
    obtain ⟨fuel, rfl⟩ := succ_of_need hfuel
    simp only [parse, parseTerm, hskip, number_matches hdigit (d := 0x28) (by decide),
      number_matches hdigit (d := 0x2d) (by decide), parseNumber_number hdigit]
  | missing hopen hminus hnone =>
    intro fuel hfuel
    obtain ⟨fuel, rfl⟩ := succ_of_need hfuel
    simp only [parse, parseTerm, hopen, hminus, parseNumber_missing hnone]

/-- **What the parser returns, the text is read as.** -/
theorem reads_of_parse {fuel : Nat} {s : Stage} {w r : List UInt8} {v : Int32}
    (h : parse fuel s w = .ok (v, r)) : Reads s w v r := by
  induction fuel generalizing s w r v with
  | zero => exact absurd h (by simp [parse_zero])
  | succ fuel ih =>
    cases s with
    | chain l =>
      rw [parse_chain] at h
      obtain ⟨⟨n, u⟩, hoperand, h⟩ := bind_ok h
      simp only at h
      split at h
      · next he =>
        obtain ⟨rfl, rfl⟩ := Prod.mk.inj (Except.ok.inj h)
        subst he
        exact .chainError (ih hoperand)
      · next hne => exact .chain (ih hoperand) hne (ih h)
    | loop l n =>
      rw [parse_loop] at h
      split at h
      · next o w' hnext =>
        obtain ⟨⟨m, u⟩, hoperand, h⟩ := bind_ok h
        simp only at h
        split at h
        · next he =>
          obtain ⟨rfl, rfl⟩ := Prod.mk.inj (Except.ok.inj h)
          subst he
          exact .operatorError hnext (ih hoperand)
        · next hne =>
          obtain ⟨n', hexecute, h⟩ := bind_ok h
          unfold Operator.execute at hexecute
          split at hexecute
          · cases hexecute
          · next hzero =>
            obtain rfl := Except.ok.inj hexecute
            exact .operator hnext (ih hoperand) hne (fun ho hm => hzero ⟨ho, hm⟩) (ih h)
      · next hnext =>
        obtain ⟨rfl, rfl⟩ := Prod.mk.inj (Except.ok.inj h)
        exact .stop hnext
    | term =>
      change parseTerm (fuel + 1) w = .ok (v, r) at h
      unfold parseTerm at h
      split at h
      · next w' hopen =>
        obtain ⟨⟨n, u⟩, hsum, h⟩ := bind_ok h
        have hsum := ih (s := .chain .sum) hsum
        simp only at h
        split at h
        · next he =>
          obtain ⟨rfl, rfl⟩ := Prod.mk.inj (Except.ok.inj h)
          subst he
          exact .parensError hopen hsum
        · next hne =>
          split at h
          · next hclose =>
            obtain ⟨rfl, rfl⟩ := Prod.mk.inj (Except.ok.inj h)
            exact .parens hopen hsum hne hclose
          · next hclose =>
            obtain ⟨rfl, rfl⟩ := Prod.mk.inj (Except.ok.inj h)
            exact .unclosed hopen hsum hne hclose
      · next hopen =>
        split at h
        · next w' hminus =>
          obtain ⟨⟨n, u⟩, hterm, h⟩ := bind_ok h
          obtain ⟨rfl, rfl⟩ := Prod.mk.inj (Except.ok.inj h)
          exact .negate hopen hminus (ih (s := .term) hterm)
        · next hminus =>
          by_cases hdigit : ∃ c digits, skipBlanks w = c :: digits ∧ isDigit c
          · obtain ⟨c, digits, hskip, hc⟩ := hdigit
            rw [hskip, parseNumber_number hc] at h
            rw [← (Prod.mk.inj (Except.ok.inj h)).1, ← (Prod.mk.inj (Except.ok.inj h)).2]
            exact .number hskip hc
          · have hnone : ∀ c digits, skipBlanks w = c :: digits → ¬ isDigit c :=
              fun c digits hskip hc => hdigit ⟨c, digits, hskip, hc⟩
            rw [parseNumber_missing hnone] at h
            obtain ⟨rfl, rfl⟩ := Prod.mk.inj (Except.ok.inj h)
            exact .missing hopen hminus hnone

end AmateurOs.Calculator
