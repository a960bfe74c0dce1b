/-
# Copies

A copy fills `n` places with what `n` others hold.  `Copied` says what it leaves: each destination
has what its source had at first, and nothing else has changed.

A copy that goes from the first place to the last, in chunks of any size, is one as long as no place
is written before it is read (`Ahead`, `Copied.chunks`).  The places may overlap, and a chunk may
overlap itself when all of it is read before it is written.

There is only one memory that a copy can leave (`Copied.unique`), so two ways to copy are compared by
showing that both are copies.
-/
import Mathlib.Logic.Function.Basic
import Mathlib.Data.List.Range

namespace AmateurOs.Lib

section

variable {α β : Type*}

/-- **A copy** of `n` places. -/
structure Copied (dst src : Nat → α) (n : Nat) (m m' : α → β) : Prop where
  copied : ∀ k < n, m' (dst k) = m (src k)
  kept : ∀ a, (∀ k < n, a ≠ dst k) → m' a = m a

/-- **No place is written before it is read**, and none is written twice. -/
structure Ahead (dst src : Nat → α) (n : Nat) : Prop where
  once : ∀ j < n, ∀ k < n, dst j = dst k → j = k
  unread : ∀ k < n, ∀ j < k, dst j ≠ src k

variable {dst src : Nat → α} {n w : Nat} {m m' m'' : α → β}

theorem Ahead.mono (h : Ahead dst src n) {n' : Nat} (hle : n' ≤ n) : Ahead dst src n' :=
  ⟨fun j hj k hk => h.once j (Nat.lt_of_lt_of_le hj hle) k (Nat.lt_of_lt_of_le hk hle),
    fun k hk => h.unread k (Nat.lt_of_lt_of_le hk hle)⟩

theorem copied_zero (dst src : Nat → α) (m : α → β) : Copied dst src 0 m m :=
  ⟨fun _ hk => absurd hk (Nat.not_lt_zero _), fun _ _ => rfl⟩

theorem copied_one [DecidableEq α] (dst src : Nat → α) (m : α → β) :
    Copied dst src 1 m (Function.update m (dst 0) (m (src 0))) := by
  refine ⟨fun k hk => ?_, fun a ha => Function.update_of_ne (ha 0 Nat.one_pos) _ _⟩
  obtain rfl : k = 0 := Nat.lt_one_iff.mp hk
  exact Function.update_self _ _ _

/-- **One chunk more.** -/
theorem Copied.chunk (h : Copied dst src n m m') (hahead : Ahead dst src (n + w))
    (hchunk : Copied (fun k => dst (n + k)) (fun k => src (n + k)) w m' m'') :
    Copied dst src (n + w) m m'' := by
  refine ⟨fun k hk => ?_, fun a ha => ?_⟩
  · rcases Nat.lt_or_ge k n with hlt | hge
    · -- a place of an earlier chunk
      have hother : ∀ i < w, dst k ≠ dst (n + i) := fun i hi heq => by
        have hsame := hahead.once k hk (n + i) (by omega) heq
        omega
      rw [hchunk.kept _ hother]
      exact h.copied k hlt
    · -- a place of this one: its source is as it was
      obtain ⟨i, rfl⟩ := Nat.exists_eq_add_of_le hge
      have hsource : ∀ j < n, src (n + i) ≠ dst j := fun j hj =>
        (hahead.unread (n + i) hk j (by omega)).symm
      rw [hchunk.copied i (by omega)]
      exact h.kept _ hsource
  · rw [hchunk.kept a fun i hi => ha (n + i) (by omega)]
    exact h.kept a fun k hk => ha k (by omega)

/-- **A loop of chunks**, from the first on. -/
theorem Copied.chunks {step : (α → β) → Nat → α → β} {count : Nat}
    (hahead : Ahead dst src (w * count))
    (hstep : ∀ i < count, ∀ m, Copied (fun k => dst (w * i + k)) (fun k => src (w * i + k)) w m
      (step m i)) (m : α → β) :
    Copied dst src (w * count) m ((List.range count).foldl step m) := by
  induction count with
  | zero => exact copied_zero dst src m
  | succ count ih =>
    rw [Nat.mul_succ] at hahead ⊢
    rw [List.range_succ, List.foldl_append]
    have hbefore := ih (hahead.mono (Nat.le_add_right _ _)) fun i hi => hstep i (by omega)
    exact hbefore.chunk hahead (hstep count (Nat.lt_succ_self count) _)

/-- **A copy has one result.** -/
theorem Copied.unique (h : Copied dst src n m m') (h' : Copied dst src n m m'') : m' = m'' := by
  funext a
  by_cases hin : ∃ k < n, a = dst k
  · obtain ⟨k, hk, rfl⟩ := hin
    rw [h.copied k hk, h'.copied k hk]
  · have hout : ∀ k < n, a ≠ dst k := fun k hk heq => hin ⟨k, hk, heq⟩
    rw [h.kept a hout, h'.kept a hout]

end

end AmateurOs.Lib
