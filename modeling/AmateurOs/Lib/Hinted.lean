/-
# A bitmap with a hint

An allocator that takes the number its hint points at, marks it, and looks for the next clear one;
a number that is given back is cleared and the hint stays where it is.  The hint is the least
clear number after it was looked for, and only a clear one later on: `Hinted` is the invariant.

`Hinted.take` and `Hinted.give` are its rules.
-/
import AmateurOs.Lib.Bytes
import Mathlib.Data.Set.Insert

namespace AmateurOs.Lib

/-- **The hint points at a clear number**, and the bits are those of the start and those of the live
numbers, which were clear then. -/
structure Hinted (n : Nat) (bit₀ bit : Nat → Bool) (hint : Nat) (live : Set Nat) : Prop where
  hint_lt : hint < n
  hint_clear : bit hint = false
  live_clear : ∀ i ∈ live, i < n ∧ bit₀ i = false
  bits : ∀ i < n, bit i = true ↔ bit₀ i = true ∨ i ∈ live

section

variable {n hint : Nat} {bit₀ bit bit' : Nat → Bool} {live : Set Nat}

theorem Hinted.start (hlt : hint < n) (hclear : bit hint = false) : Hinted n bit bit hint ∅ :=
  ⟨hlt, hclear, fun _ hi => absurd hi (Set.notMem_empty _),
    fun _ _ => ⟨Or.inl, fun h => h.resolve_right (Set.notMem_empty _)⟩⟩

/-- The number taken next is not live. -/
theorem Hinted.fresh (h : Hinted n bit₀ bit hint live) : hint ∉ live := fun hlive => by
  have hset := (h.bits hint h.hint_lt).mpr (Or.inr hlive)
  rw [h.hint_clear] at hset
  cases hset

/-- **A number is taken**, and the next one looked for. -/
theorem Hinted.take (h : Hinted n bit₀ bit hint live) {r : Option Nat}
    (hbit : ∀ i < n, bit' i = (bit i || decide (i = hint)))
    (hleft : ∃ i < n, i ≠ hint ∧ bit i = false) (hnext : FirstClear bit' n r) :
    ∃ next, r = some next ∧ Hinted n bit₀ bit' next (insert hint live) := by
  have hinitial : bit₀ hint = false := by
    rw [Bool.eq_false_iff]
    intro hset
    have hnow := (h.bits hint h.hint_lt).mpr (Or.inl hset)
    rw [h.hint_clear] at hnow
    cases hnow
  cases hnext with
  | full hset =>
    obtain ⟨i, hi, hne, hclear⟩ := hleft
    have hfull := hset i hi
    rw [hbit i hi, hclear, decide_eq_false hne] at hfull
    cases hfull
  | @found next hlt hclear _ =>
    refine ⟨next, rfl, hlt, hclear, fun i hi => ?_, fun i hi => ?_⟩
    · rcases Set.mem_insert_iff.mp hi with rfl | hi
      · exact ⟨h.hint_lt, hinitial⟩
      · exact h.live_clear i hi
    · rw [hbit i hi, Bool.or_eq_true, h.bits i hi, decide_eq_true_iff, Set.mem_insert_iff, or_assoc]
      exact or_congr_right Or.comm

/-- **A live number is given back.** -/
theorem Hinted.give (h : Hinted n bit₀ bit hint live) {k : Nat} (hk : k ∈ live)
    (hbit : ∀ i < n, bit' i = (bit i && decide (i ≠ k))) :
    Hinted n bit₀ bit' hint (live \ {k}) := by
  refine ⟨h.hint_lt, ?_, fun i hi => h.live_clear i hi.1, fun i hi => ?_⟩
  · rw [hbit hint h.hint_lt, h.hint_clear, Bool.false_and]
  · rw [hbit i hi, Bool.and_eq_true, h.bits i hi, decide_eq_true_iff, Set.mem_diff,
      Set.mem_singleton_iff]
    constructor
    · rintro ⟨hor, hne⟩
      exact hor.imp_right fun hlive => ⟨hlive, hne⟩
    · rintro (hset | ⟨hlive, hne⟩)
      · refine ⟨Or.inl hset, fun heq => ?_⟩
        rw [heq, (h.live_clear k hk).2] at hset
        cases hset
      · exact ⟨Or.inr hlive, hne⟩

/-- Bits that stay as they are. -/
theorem Hinted.congr (h : Hinted n bit₀ bit hint live) (hbit : ∀ i < n, bit' i = bit i) :
    Hinted n bit₀ bit' hint live :=
  ⟨h.hint_lt, (hbit hint h.hint_lt).trans h.hint_clear, h.live_clear, fun i hi => by
    rw [hbit i hi, h.bits i hi]⟩

end

end AmateurOs.Lib
