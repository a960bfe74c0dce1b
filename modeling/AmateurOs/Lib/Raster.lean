/-
# Lines and circles on a grid

The two classical incremental walks over the grid, on integers of any size.

* `Walk` is the line with an error term, from one point to another that is `a` columns and `b` rows
  away.  In every turn it takes a step along the longer axis (`OnLine`), and after `max a b` turns
  it has taken `a` and `b` steps (`walk_end`).  Columns and rows are symmetric (`walk_swap`), so
  that `b ≤ a` is the only case that is argued about.
* `Arc` is an eighth of a circle with a decision variable.  The variable is a quadratic expression
  in the point (`Round`), and the point stays within half a step of the circle.
-/
import Mathlib.Tactic.Ring
import Mathlib.Tactic.Linarith
import Mathlib.Tactic.LinearCombination
import Mathlib.Logic.Function.Iterate
import Mathlib.Data.Nat.Find

namespace AmateurOs.Lib

/-! ## 1. Lines -/

/-- The steps taken along both axes, and the error term. -/
@[ext]
structure Walk where
  xs : Int
  ys : Int
  err : Int

namespace Walk

/-- One turn: both comparisons are made with the error term of its beginning. -/
def turn (a b : Int) (w : Walk) : Walk where
  xs := if -b ≤ 2 * w.err then w.xs + 1 else w.xs
  ys := if 2 * w.err ≤ a then w.ys + 1 else w.ys
  err := w.err + (if -b ≤ 2 * w.err then -b else 0) + (if 2 * w.err ≤ a then a else 0)

/-- The walk seen along the other diagonal. -/
def swap (w : Walk) : Walk := ⟨w.ys, w.xs, -w.err⟩

theorem turn_swap (a b : Int) (w : Walk) : turn b a w.swap = (turn a b w).swap := by
  have hx : -a ≤ 2 * -w.err ↔ 2 * w.err ≤ a := by omega
  have hy : 2 * -w.err ≤ b ↔ -b ≤ 2 * w.err := by omega
  unfold turn swap
  simp only [hx, hy, Walk.mk.injEq]
  refine ⟨trivial, trivial, ?_⟩
  split <;> split <;> omega

end Walk

/-- The walk after some turns. -/
def walk (a b : Int) (n : Nat) : Walk := (Walk.turn a b)^[n] ⟨0, 0, a - b⟩

theorem walk_succ (a b : Int) (n : Nat) : walk a b (n + 1) = (walk a b n).turn a b :=
  Function.iterate_succ_apply' _ _ _

theorem walk_swap (a b : Int) (n : Nat) : walk b a n = (walk a b n).swap := by
  induction n with
  | zero =>
    show (⟨0, 0, b - a⟩ : Walk) = ⟨0, 0, -(a - b)⟩
    rw [Int.neg_sub]
  | succ n ih => rw [walk_succ, walk_succ, ih, Walk.turn_swap]

/-- **The error term of a flat line** tells how far the steps are from the line: by half a step at
most on one side. -/
structure Balanced (a b : Int) (w : Walk) : Prop where
  ys_nonneg : 0 ≤ w.ys
  err_eq : w.err = (w.ys + 1) * a - (w.xs + 1) * b
  le_err : -b ≤ 2 * w.err
  err_le : 2 * w.err ≤ 3 * a - 2 * b

section

variable {a b : Int} {w : Walk}

/-- A flat line takes a step along its columns in every turn. -/
theorem Balanced.turn (h : Balanced a b w) (hb : 0 ≤ b) (hba : b ≤ a) :
    (w.turn a b).xs = w.xs + 1 ∧ Balanced a b (w.turn a b) := by
  have hys := h.ys_nonneg
  have hle := h.le_err
  have hge := h.err_le
  have heq := h.err_eq
  refine ⟨if_pos hle, ?_⟩
  unfold Walk.turn
  rw [if_pos hle, if_pos hle]
  by_cases hy : 2 * w.err ≤ a
  · rw [if_pos hy, if_pos hy]
    refine ⟨Int.add_nonneg hys (by decide), by linear_combination heq, ?_, ?_⟩
    · show -b ≤ 2 * (w.err + -b + a)
      omega
    · show 2 * (w.err + -b + a) ≤ 3 * a - 2 * b
      omega
  · rw [if_neg hy, if_neg hy]
    refine ⟨hys, by linear_combination heq, ?_, ?_⟩
    · show -b ≤ 2 * (w.err + -b + 0)
      omega
    · show 2 * (w.err + -b + 0) ≤ 3 * a - 2 * b
      omega

theorem walk_balanced (hb : 0 ≤ b) (hba : b ≤ a) (n : Nat) :
    (walk a b n).xs = n ∧ Balanced a b (walk a b n) := by
  induction n with
  | zero =>
    refine ⟨rfl, ⟨Int.le_refl 0, ?_, ?_, ?_⟩⟩
    · show a - b = (0 + 1) * a - (0 + 1) * b
      ring
    · show -b ≤ 2 * (a - b)
      omega
    · show 2 * (a - b) ≤ 3 * a - 2 * b
      omega
  | succ n ih =>
    obtain ⟨hxs, hbal⟩ := ih
    obtain ⟨hx, hnext⟩ := hbal.turn hb hba
    rw [walk_succ]
    refine ⟨?_, hnext⟩
    rw [hx, hxs]
    push_cast
    rfl

/-- The rows never run ahead of the end. -/
theorem Balanced.ys_le (h : Balanced a b w) (hb : 0 ≤ b) (ha : 0 < a) (hxs : w.xs ≤ a) :
    w.ys ≤ b := by
  have heq := h.err_eq
  have hge := h.err_le
  have hprod : w.xs * b ≤ a * b := Int.mul_le_mul_of_nonneg_right hxs hb
  by_contra hlt
  have hys : b + 1 ≤ w.ys := by omega
  have hmul : (b + 1) * a ≤ w.ys * a := Int.mul_le_mul_of_nonneg_right hys (Int.le_of_lt ha)
  nlinarith only [heq, hge, hprod, hmul, ha]

/-- Where the columns end, the rows do. -/
theorem Balanced.ys_end (h : Balanced a b w) (hb : 0 ≤ b) (ha : 0 < a) (hxs : w.xs = a) :
    w.ys = b := by
  have hle := h.ys_le hb ha (Int.le_of_eq hxs)
  have heq := h.err_eq
  have hge := h.le_err
  by_contra hne
  have hys : w.ys ≤ b - 1 := by omega
  have hmul : w.ys * a ≤ (b - 1) * a := Int.mul_le_mul_of_nonneg_right hys (Int.le_of_lt ha)
  rw [hxs] at heq
  -- then the error term is at most `-b`, which only a line without rows has
  have herr : w.err ≤ -b := by nlinarith only [heq, hmul]
  have hrows := h.ys_nonneg
  omega

end

/-- **A line after `n` turns**: inside the box of its two ends, `n` steps along its longer axis. -/
structure OnLine (a b : Int) (n : Nat) (w : Walk) : Prop where
  xs_nonneg : 0 ≤ w.xs
  xs_le : w.xs ≤ a
  ys_nonneg : 0 ≤ w.ys
  ys_le : w.ys ≤ b
  columns : b ≤ a → w.xs = n
  rows : a ≤ b → w.ys = n
  le_err : -(3 * max a b) ≤ 2 * w.err
  err_le : 2 * w.err ≤ 3 * max a b

section

variable {a b : Int} {n : Nat} {w : Walk}

theorem OnLine.swap (h : OnLine a b n w) : OnLine b a n w.swap := by
  have hle := h.le_err
  have hge := h.err_le
  rw [max_comm] at hle hge
  refine ⟨h.ys_nonneg, h.ys_le, h.xs_nonneg, h.xs_le, h.rows, h.columns, ?_, ?_⟩
  · show -(3 * max b a) ≤ 2 * -w.err
    omega
  · show 2 * -w.err ≤ 3 * max b a
    omega

/-- The flat case. -/
theorem walk_flat (hb : 0 ≤ b) (hba : b ≤ a) (hn : (n : Int) ≤ a) :
    OnLine a b n (walk a b n) ∧ ((n : Int) = a → (walk a b n).ys = b) := by
  obtain ⟨hxs, hbal⟩ := walk_balanced hb hba n
  have hle := hbal.le_err
  have hge := hbal.err_le
  have hmax : max a b = a := max_eq_left hba
  rcases Int.lt_or_eq_of_le (Int.le_trans hb hba) with ha | rfl
  · have hys := hbal.ys_le hb ha (by omega)
    have hend : (n : Int) = a → (walk a b n).ys = b := fun h => hbal.ys_end hb ha (hxs.trans h)
    refine ⟨⟨by omega, by omega, hbal.ys_nonneg, hys, fun _ => hxs, fun hab => ?_, ?_, ?_⟩, hend⟩
    · -- a diagonal: the rows are the columns
      have hdiag := hbal.err_eq
      have hab' : a = b := Int.le_antisymm hab hba
      subst hab'
      have hfactor : (walk a a n).err = ((walk a a n).ys - (walk a a n).xs) * a := by
        rw [hdiag]
        ring
      have hlow : -1 < (walk a a n).ys - (walk a a n).xs := by
        by_contra hneg
        have hmul : ((walk a a n).ys - (walk a a n).xs) * a ≤ -1 * a :=
          Int.mul_le_mul_of_nonneg_right (by omega) (by omega)
        omega
      have hhigh : (walk a a n).ys - (walk a a n).xs < 1 := by
        by_contra hpos
        have hmul : 1 * a ≤ ((walk a a n).ys - (walk a a n).xs) * a :=
          Int.mul_le_mul_of_nonneg_right (by omega) (by omega)
        omega
      omega
    · rw [hmax]
      omega
    · rw [hmax]
      omega
  · obtain rfl : b = 0 := Int.le_antisymm hba hb
    obtain rfl : n = 0 := by omega
    exact ⟨⟨Int.le_refl 0, Int.le_refl 0, Int.le_refl 0, Int.le_refl 0, fun _ => rfl, fun _ => rfl,
      by decide, by decide⟩, fun _ => rfl⟩

/-- **Every line stays in its box.** -/
theorem walk_onLine (ha : 0 ≤ a) (hb : 0 ≤ b) (hn : (n : Int) ≤ max a b) :
    OnLine a b n (walk a b n) := by
  rcases Int.le_total b a with hba | hab
  · exact (walk_flat hb hba (by rwa [max_eq_left hba] at hn)).1
  · have hflat := (walk_flat ha hab (by rwa [max_eq_right hab] at hn)).1
    rw [walk_swap b a]
    exact hflat.swap

/-- **And reaches its end** after as many turns as its longer axis has steps. -/
theorem walk_end (ha : 0 ≤ a) (hb : 0 ≤ b) (hn : (n : Int) = max a b) :
    (walk a b n).xs = a ∧ (walk a b n).ys = b := by
  rcases Int.le_total b a with hba | hab
  · have hna : (n : Int) = a := hn.trans (max_eq_left hba)
    obtain ⟨hline, hend⟩ := walk_flat hb hba (Int.le_of_eq hna)
    exact ⟨(hline.columns hba).trans hna, hend hna⟩
  · have hnb : (n : Int) = b := hn.trans (max_eq_right hab)
    obtain ⟨hline, hend⟩ := walk_flat ha hab (Int.le_of_eq hnb)
    rw [walk_swap] at hline hend
    exact ⟨hend hnb, (hline.columns hab).trans hnb⟩

/-- Not before. -/
theorem OnLine.not_end (h : OnLine a b n w) (hn : (n : Int) < max a b) :
    ¬ (w.xs = a ∧ w.ys = b) := by
  rintro ⟨hx, hy⟩
  rcases Int.le_total b a with hba | hab
  · have := h.columns hba
    rw [max_eq_left hba] at hn
    omega
  · have := h.rows hab
    rw [max_eq_right hab] at hn
    omega

end

/-! ## 2. Circles -/

/-- A point of the second octant, relative to the centre, and the decision variable. -/
@[ext]
structure Arc where
  x : Int
  y : Int
  p : Int

namespace Arc

/-- The top of a circle. -/
def top (r : Int) : Arc := ⟨0, r, 1 - r⟩

/-- One turn: a column to the right, and a row down when the variable is not negative. -/
def turn (c : Arc) : Arc :=
  if c.p < 0 then ⟨c.x + 1, c.y, c.p + (2 * (c.x + 1) + 1)⟩
  else ⟨c.x + 1, c.y - 1, c.p + (2 * ((c.x + 1) - (c.y - 1)) + 1)⟩

/-- How far the point is off the circle. -/
def off (r : Int) (c : Arc) : Int := c.x * c.x + c.y * c.y - r * r

end Arc

/-- **The decision variable** is the distance of the point halfway between the two candidates of
the next turn, and the point is near the circle. -/
structure Round (r : Int) (c : Arc) : Prop where
  p_eq : c.p = c.off r + 2 * c.x + 1 - c.y
  x_nonneg : 0 ≤ c.x
  y_nonneg : 0 ≤ c.y
  x_le : c.x ≤ r
  y_le : c.y ≤ r
  x_le_y : c.x ≤ c.y + 1
  le_off : -c.y ≤ c.off r
  off_le : c.off r ≤ max c.x c.y

theorem round_top {r : Int} (hr : 0 ≤ r) : Round r (Arc.top r) := by
  have hoff : (Arc.top r).off r = 0 := by
    show 0 * 0 + r * r - r * r = 0
    ring
  refine ⟨?_, Int.le_refl 0, hr, hr, Int.le_refl r, ?_, ?_, ?_⟩
  · rw [hoff]
    show 1 - r = 0 + 2 * 0 + 1 - r
    ring
  · exact Int.le_trans hr (by show r ≤ r + 1; omega)
  · rw [hoff]
    show -r ≤ 0
    omega
  · rw [hoff]
    exact le_max_of_le_left (Int.le_refl 0)

section

variable {r : Int} {c : Arc}

/-- **One turn keeps the circle round**, also the last one, where `x` may overtake `y`. -/
theorem Round.turn (h : Round r c) (hlt : c.x < c.y) : Round r c.turn := by
  have hp := h.p_eq
  have hx := h.x_nonneg
  have hyr := h.y_le
  have hlow := h.le_off
  have hhigh := h.off_le
  rw [max_eq_right (Int.le_of_lt hlt)] at hhigh
  unfold Arc.turn
  by_cases hneg : c.p < 0
  · -- to the right: what was missing is less than the decision variable says
    have hoff : Arc.off r ⟨c.x + 1, c.y, c.p + (2 * (c.x + 1) + 1)⟩ = c.p + c.y := by
      show (c.x + 1) * (c.x + 1) + c.y * c.y - r * r = c.p + c.y
      rw [hp]
      show _ = c.x * c.x + c.y * c.y - r * r + 2 * c.x + 1 - c.y + c.y
      ring
    rw [if_pos hneg]
    refine ⟨?_, by show 0 ≤ c.x + 1; omega, by show 0 ≤ c.y; omega, by show c.x + 1 ≤ r; omega,
      hyr, by show c.x + 1 ≤ c.y + 1; omega, ?_, ?_⟩
    · rw [hoff]
      show c.p + (2 * (c.x + 1) + 1) = c.p + c.y + 2 * (c.x + 1) + 1 - c.y
      ring
    · rw [hoff]
      show -c.y ≤ c.p + c.y
      omega
    · rw [hoff]
      exact le_max_of_le_right (by show c.p + c.y ≤ c.y; omega)
  · -- and down
    have hoff : Arc.off r ⟨c.x + 1, c.y - 1, c.p + (2 * ((c.x + 1) - (c.y - 1)) + 1)⟩ =
        c.p - (c.y - 1) := by
      show (c.x + 1) * (c.x + 1) + (c.y - 1) * (c.y - 1) - r * r = c.p - (c.y - 1)
      rw [hp]
      show _ = c.x * c.x + c.y * c.y - r * r + 2 * c.x + 1 - c.y - (c.y - 1)
      ring
    rw [if_neg hneg]
    refine ⟨?_, by show 0 ≤ c.x + 1; omega, by show 0 ≤ c.y - 1; omega,
      by show c.x + 1 ≤ r; omega, by show c.y - 1 ≤ r; omega,
      by show c.x + 1 ≤ c.y - 1 + 1; omega, ?_, ?_⟩
    · rw [hoff]
      show c.p + (2 * ((c.x + 1) - (c.y - 1)) + 1) = c.p - (c.y - 1) + 2 * (c.x + 1) + 1 - (c.y - 1)
      ring
    · rw [hoff]
      show -(c.y - 1) ≤ c.p - (c.y - 1)
      omega
    · rw [hoff]
      show c.p - (c.y - 1) ≤ max (c.x + 1) (c.y - 1)
      exact le_max_of_le_left (by omega)

/-- The points of the walk, from the top. -/
def arc (r : Int) (n : Nat) : Arc := Arc.turn^[n] (Arc.top r)

theorem arc_succ (r : Int) (n : Nat) : arc r (n + 1) = (arc r n).turn :=
  Function.iterate_succ_apply' _ _ _

theorem arc_x (r : Int) (n : Nat) : (arc r n).x = n := by
  induction n with
  | zero => rfl
  | succ n ih =>
    have hx : (arc r n).turn.x = (arc r n).x + 1 := by
      unfold Arc.turn
      split <;> rfl
    rw [arc_succ, hx, ih]
    push_cast
    rfl

theorem round_arc (hr : 0 ≤ r) {n : Nat} (h : ∀ k < n, (arc r k).x < (arc r k).y) :
    Round r (arc r n) := by
  induction n with
  | zero => exact round_top hr
  | succ n ih =>
    rw [arc_succ]
    exact (ih fun k hk => h k (Nat.lt_succ_of_lt hk)).turn (h n (Nat.lt_succ_self n))

/-- **The walk reaches the diagonal.** -/
theorem arc_stops (r : Nat) : ∃ n ≤ r, (arc r n).y ≤ (arc r n).x ∧
    ∀ k < n, (arc r k).x < (arc r k).y := by
  have hexists : ∃ n, (arc r n).y ≤ (arc r n).x := by
    by_contra hnone
    rw [not_exists] at hnone
    have hround := @round_arc r (Int.natCast_nonneg r) r fun k _ => Int.not_le.mp (hnone k)
    exact hnone r (by rw [arc_x]; exact hround.y_le)
  classical
  have hbefore : ∀ k < Nat.find hexists, (arc r k).x < (arc r k).y := fun k hk =>
    Int.not_le.mp (Nat.find_min hexists hk)
  have hround := round_arc (Int.natCast_nonneg r) hbefore
  have hcolumn := hround.x_le
  rw [arc_x] at hcolumn
  exact ⟨Nat.find hexists, Int.ofNat_le.mp hcolumn, Nat.find_spec hexists, hbefore⟩

/-- **The decision variable is small.** -/
theorem Round.p_bounds (h : Round r c) : -(2 * r) < c.p ∧ c.p ≤ 2 * r + 1 := by
  have hp := h.p_eq
  have hx := h.x_nonneg
  have hxr := h.x_le
  have hyr := h.y_le
  have hxy := h.x_le_y
  have hlow := h.le_off
  have hhigh := h.off_le
  refine ⟨by omega, ?_⟩
  rcases Int.lt_or_le c.y c.x with hover | hle
  · obtain hy : c.y = c.x - 1 := by omega
    rw [max_eq_left (Int.le_of_lt hover)] at hhigh
    rcases Int.lt_or_eq_of_le hxr with hlt | heq
    · omega
    · -- only the two smallest circles are crossed at the far right
      have hsquare : r * r + (r - 1) * (r - 1) - r * r ≤ r := by
        unfold Arc.off at hhigh
        rwa [hy, heq] at hhigh
      have hr : r ≤ 2 := by
        by_contra hbig
        have hmul : 3 * r ≤ r * r := Int.mul_le_mul_of_nonneg_right (by omega) (by omega)
        nlinarith only [hsquare, hmul]
      unfold Arc.off at hp
      rw [hy, heq] at hp
      have hr' : r = 0 ∨ r = 1 ∨ r = 2 := by omega
      rcases hr' with rfl | rfl | rfl <;> omega
  · rw [max_eq_right hle] at hhigh
    omega

/-- **The point is near the circle**, by a part of its larger coordinate. -/
theorem Round.near (h : Round r c) : -max c.x c.y ≤ c.off r ∧ c.off r ≤ max c.x c.y := by
  have hlow := h.le_off
  have hmax := le_max_right c.x c.y
  exact ⟨by omega, h.off_le⟩

/-- **No gap**: a column behind the last point of the walk is in the next octant. -/
theorem Round.behind (h : Round r c) (hge : c.y ≤ c.x) {k : Int} (hk : c.x < k) :
    r * r < 2 * (k * k) := by
  have hx := h.x_nonneg
  have hy := h.y_nonneg
  have hlow := h.le_off
  unfold Arc.off at hlow
  have hyy : c.y * c.y ≤ c.x * c.x := Int.mul_le_mul hge hge hy hx
  have hkk : (c.x + 1) * (c.x + 1) ≤ k * k := Int.mul_le_mul hk hk (by omega) (by omega)
  nlinarith only [hlow, hyy, hkk, hge, hx]

end

end AmateurOs.Lib
