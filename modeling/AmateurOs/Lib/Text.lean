/-
# Text in memory

A row of characters spelled out from an address on (`Spells`), how it splits, and what a store
elsewhere leaves of it.
-/
import Mathlib.Logic.Function.Basic
import AmateurOs.Lib.Bytes

namespace AmateurOs.Lib

/-- The bytes from `i` on are these characters. -/
def Spells (m : Bytes) (i : Nat) (cs : List UInt8) : Prop :=
  ∀ k (h : k < cs.length), m (i + k) = cs[k]

section

variable {m m' : Bytes} {i : Nat} {c : UInt8} {cs ds : List UInt8}

theorem spells_nil : Spells m i [] := fun k h => absurd h (Nat.not_lt_zero k)

theorem spells_cons : Spells m i (c :: cs) ↔ m i = c ∧ Spells m (i + 1) cs := by
  constructor
  · intro h
    refine ⟨h 0 (Nat.succ_pos _), fun k hk => ?_⟩
    have := h (k + 1) (Nat.succ_lt_succ hk)
    rwa [(by omega : i + (k + 1) = i + 1 + k)] at this
  · rintro ⟨h0, h⟩ k hk
    cases k with
    | zero => exact h0
    | succ k =>
      have := h k (Nat.lt_of_succ_lt_succ hk)
      rwa [(by omega : i + 1 + k = i + (k + 1))] at this

theorem spells_append : Spells m i (cs ++ ds) ↔ Spells m i cs ∧ Spells m (i + cs.length) ds := by
  induction cs generalizing i with
  | nil => simp [spells_nil]
  | cons c cs ih =>
    rw [List.cons_append, spells_cons, ih, spells_cons, and_assoc, List.length_cons,
      (by omega : i + 1 + cs.length = i + (cs.length + 1))]

/-- Only the bytes of the text matter. -/
theorem Spells.frame (h : Spells m i cs) (hs : ∀ p, i ≤ p → p < i + cs.length → m' p = m p) :
    Spells m' i cs := fun k hk => (hs _ (by omega) (by omega)).trans (h k hk)

end

end AmateurOs.Lib
