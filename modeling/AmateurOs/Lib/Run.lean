/-
# Guarded runs and fuelled loops

Two induction rules that every safety argument below goes through.

* `Reach step ok s₀ s` says that `s` is reached from `s₀` by steps each of which met the guard
  `ok` in the state it was taken in.  With the trivial guard it is plain reachability.
  `Reach.invariant` is the rule: what holds at the start and is kept by every guarded step
  holds of every state reached.
* `loop` is a `while` loop cut off after a number of turns.  `loop_inv` is the rule for partial
  correctness, `loop_some` the one for termination: a measure that every turn decreases bounds
  the number of turns.
-/
import Mathlib.Logic.Basic

namespace AmateurOs.Lib

universe u v

/-! ## 1. Guarded runs -/

section Runs

variable {σ : Type u} {ι : Type v}

/-- The states reached from `s₀` by steps that all meet the guard. -/
inductive Reach (step : σ → ι → σ → Prop) (ok : σ → ι → Prop) (s₀ : σ) : σ → Prop
  | refl : Reach step ok s₀ s₀
  | tail {s s' : σ} {a : ι} (hr : Reach step ok s₀ s) (hok : ok s a) (hs : step s a s') :
      Reach step ok s₀ s'

variable {step : σ → ι → σ → Prop} {ok : σ → ι → Prop} {s₀ : σ}

/-- **The invariant rule.** -/
theorem Reach.invariant {Inv : σ → Prop} (h0 : Inv s₀)
    (hstep : ∀ s a s', Inv s → ok s a → step s a s' → Inv s') {s : σ}
    (h : Reach step ok s₀ s) : Inv s := by
  induction h with
  | refl => exact h0
  | tail _ hok hs ih => exact hstep _ _ _ ih hok hs

/-- A weaker guard reaches more. -/
theorem Reach.mono {ok' : σ → ι → Prop} (hw : ∀ s a, ok s a → ok' s a) {s : σ}
    (h : Reach step ok s₀ s) : Reach step ok' s₀ s := by
  induction h with
  | refl => exact .refl
  | tail _ hok hs ih => exact .tail ih (hw _ _ hok) hs

end Runs

/-! ## 2. Loops -/

section Loops

variable {σ : Type u}

/-- `while (cond) body`, cut off after `fuel` turns: `none` when the condition still holds
then. -/
def loop (cond : σ → Bool) (body : σ → σ) : Nat → σ → Option σ
  | 0, s => if cond s then none else some s
  | fuel + 1, s => if cond s then loop cond body fuel (body s) else some s

variable {cond : σ → Bool} {body : σ → σ}

/-- **Partial correctness.**  What every turn keeps holds at the exit, with the condition
false. -/
theorem loop_inv {Inv : σ → Prop} (hbody : ∀ s, Inv s → cond s = true → Inv (body s)) :
    ∀ {fuel : Nat} {s s' : σ}, Inv s → loop cond body fuel s = some s' →
      Inv s' ∧ cond s' = false := by
  intro fuel
  induction fuel with
  | zero =>
    intro s s' hs h
    unfold loop at h
    split at h
    · exact absurd h (by simp)
    · next hc =>
      obtain rfl := Option.some.inj h
      exact ⟨hs, by simpa using hc⟩
  | succ fuel ih =>
    intro s s' hs h
    unfold loop at h
    split at h
    · next hc => exact ih (hbody s hs hc) h
    · next hc =>
      obtain rfl := Option.some.inj h
      exact ⟨hs, by simpa using hc⟩

/-- **Termination.**  A loop whose turns decrease a measure returns when the fuel is at least
the measure at the start. -/
theorem loop_some {Inv : σ → Prop} (meas : σ → Nat)
    (hbody : ∀ s, Inv s → cond s = true → Inv (body s) ∧ meas (body s) < meas s) :
    ∀ {fuel : Nat} {s : σ}, Inv s → meas s ≤ fuel → ∃ s', loop cond body fuel s = some s' := by
  intro fuel
  induction fuel with
  | zero =>
    intro s hs hm
    unfold loop
    split
    · next hc =>
      have := (hbody s hs hc).2
      omega
    · exact ⟨s, rfl⟩
  | succ fuel ih =>
    intro s hs hm
    unfold loop
    split
    · next hc =>
      obtain ⟨hi, hlt⟩ := hbody s hs hc
      exact ih hi (by omega)
    · exact ⟨s, rfl⟩

/-- A loop whose condition is false at once does nothing. -/
theorem loop_done {fuel : Nat} {s : σ} (h : cond s = false) : loop cond body fuel s = some s := by
  cases fuel <;> simp [loop, h]

/-- One turn of a loop. -/
theorem loop_turn {fuel : Nat} {s : σ} (h : cond s = true) :
    loop cond body (fuel + 1) s = loop cond body fuel (body s) := by
  simp [loop, h]

/-- **A loop that is known turn by turn**: through the states `step 0`, ..., `step n`. -/
theorem loop_steps {step : Nat → σ} {n fuel : Nat}
    (hturn : ∀ k < n, cond (step k) = true ∧ body (step k) = step (k + 1))
    (hend : cond (step n) = false) (hfuel : n ≤ fuel) :
    loop cond body fuel (step 0) = some (step n) := by
  induction n generalizing step fuel with
  | zero => exact loop_done hend
  | succ n ih =>
    obtain ⟨fuel, rfl⟩ := Nat.exists_eq_succ_of_ne_zero (Nat.ne_of_gt (Nat.lt_of_lt_of_le
      (Nat.succ_pos n) hfuel))
    obtain ⟨hc, hnext⟩ := hturn 0 (Nat.succ_pos n)
    rw [loop_turn hc, hnext]
    exact @ih (fun k => step (k + 1)) fuel (fun k hk => hturn (k + 1) (Nat.succ_lt_succ hk)) hend
      (Nat.le_of_succ_le_succ hfuel)

end Loops

end AmateurOs.Lib
