/-
# Circles

`draw_circle` of `gfx/2d_gfx.h`: the walk of `Arc` along an eighth of the circle, every point of it
drawn in all eight octants.

* The loop ends where `x` has reached or overtaken `y`.  What is drawn until then covers every
  column up to the diagonal, and the exchanged points the columns behind it (`Round.behind`).
* As for lines, `assigned` keeps the values on their way into `int16_t` variables.
* A coordinate is converted to `uint16_t` where `draw_pixel` is called: the centre lies far enough
  from the limits (`Inner`).
-/
import AmateurOs.Graphics.Lines
import Mathlib.Algebra.Order.Ring.Abs

namespace AmateurOs.Graphics

open AmateurOs.Lib AmateurOs.Terminal

/-! ## 1. `draw_circle` -/

/-- The variables of `draw_circle`, the pixels plotted, and the values left in `int16_t`
variables. -/
structure Circle where
  x : Int
  y : Int
  p : Int
  mem : Bytes
  plotted : List Point
  assigned : List Int

/-- The eight calls of `draw_pixel`, in their order. -/
def octants (center : Point) (x y : Int) : List Point :=
  let pixel (a b : Int) : Point :=
    ⟨UInt16.ofInt (center.X.toNat + a), UInt16.ofInt (center.Y.toNat + b)⟩
  [pixel x y, pixel (-x) y, pixel x (-y), pixel (-x) (-y),
    pixel y x, pixel (-y) x, pixel y (-x), pixel (-y) (-x)]

def Circle.plot (g : VbeModeInfo) (color : UInt32) (center : Point) (s : Circle) : Circle :=
  { s with
    mem := (octants center s.x s.y).foldl (drawPixel g color) s.mem
    plotted := s.plotted ++ octants center s.x s.y }

/-- A turn of the loop before its pixels. -/
def circleTurn (s : Circle) : Circle :=
  let x := i16 (s.x + 1)
  if s.p < 0 then
    { s with
      x := x
      p := i16 (s.p + (2 * x + 1))
      assigned := s.assigned ++ [s.x + 1, s.p + (2 * x + 1)] }
  else
    let y := i16 (s.y - 1)
    { s with
      x := x
      y := y
      p := i16 (s.p + (2 * (x - y) + 1))
      assigned := s.assigned ++ [s.x + 1, s.y - 1, s.p + (2 * (x - y) + 1)] }

def firstCircle (radius : UInt16) (m : Bytes) : Circle where
  x := 0
  y := i16 radius.toNat
  p := i16 (1 - radius.toNat)
  mem := m
  plotted := []
  assigned := [0, radius.toNat, 1 - radius.toNat]

/-- `draw_circle`. -/
def drawCircle (g : VbeModeInfo) (color : UInt32) (center : Point) (radius : UInt16) (m : Bytes)
    (fuel : Nat) : Option Circle :=
  loop (fun s => decide (s.x < s.y)) (fun s => (circleTurn s).plot g color center) fuel
    ((firstCircle radius m).plot g color center)

/-! ## 2. Offsets -/

/-- The centre is a radius away from the limits of the coordinates. -/
structure Inner (center : Point) (radius : UInt16) : Prop where
  left : radius.toNat ≤ center.X.toNat
  right : center.X.toNat + radius.toNat ≤ 65535
  top : radius.toNat ≤ center.Y.toNat
  bottom : center.Y.toNat + radius.toNat ≤ 65535

instance (center : Point) (radius : UInt16) : Decidable (Inner center radius) :=
  decidable_of_iff (radius.toNat ≤ center.X.toNat ∧ center.X.toNat + radius.toNat ≤ 65535 ∧
      radius.toNat ≤ center.Y.toNat ∧ center.Y.toNat + radius.toNat ≤ 65535)
    ⟨fun ⟨h1, h2, h3, h4⟩ => ⟨h1, h2, h3, h4⟩, fun ⟨h1, h2, h3, h4⟩ => ⟨h1, h2, h3, h4⟩⟩

/-- One of the pixels lies at this offset from the centre. -/
def Plotted (center : Point) (pixels : List Point) (a b : Int) : Prop :=
  ∃ p ∈ pixels, (p.X.toNat : Int) = center.X.toNat + a ∧ (p.Y.toNat : Int) = center.Y.toNat + b

section

variable {center : Point} {radius : UInt16} {x y a b : Int}

/-- **The eight points** are those that the two signs and the exchange give. -/
theorem plotted_octants (h : Inner center radius) (hx : 0 ≤ x) (hxr : x ≤ radius.toNat)
    (hy : 0 ≤ y) (hyr : y ≤ radius.toNat) :
    Plotted center (octants center x y) a b ↔ |a| = x ∧ |b| = y ∨ |a| = y ∧ |b| = x := by
  obtain ⟨hleft, hright, htop, hbottom⟩ := h
  have hX : ∀ u : Int, -(radius.toNat : Int) ≤ u → u ≤ radius.toNat →
      (((UInt16.ofInt (center.X.toNat + u)).toNat : Nat) : Int) = center.X.toNat + u :=
    fun u h1 h2 => toNat_ofInt16 (by omega) (by omega)
  have hY : ∀ u : Int, -(radius.toNat : Int) ≤ u → u ≤ radius.toNat →
      (((UInt16.ofInt (center.Y.toNat + u)).toNat : Nat) : Int) = center.Y.toNat + u :=
    fun u h1 h2 => toNat_ofInt16 (by omega) (by omega)
  unfold Plotted octants
  simp only [List.mem_cons, List.not_mem_nil, or_false, exists_eq_or_imp, exists_eq_left]
  rw [hX x (by omega) hxr, hX (-x) (by omega) (by omega), hX y (by omega) hyr,
    hX (-y) (by omega) (by omega), hY x (by omega) hxr, hY (-x) (by omega) (by omega),
    hY y (by omega) hyr, hY (-y) (by omega) (by omega), abs_eq hx, abs_eq hy, abs_eq hx, abs_eq hy]
  simp only [add_right_inj]
  constructor
  · rintro (h | h | h | h | h | h | h | h) <;> omega
  · rintro (⟨h | h, h' | h'⟩ | ⟨h | h, h' | h'⟩) <;> omega

end

/-! ## 3. The loop follows the walk -/

/-- The variables of the loop as a point of the walk. -/
def Circle.arc (s : Circle) : Arc := ⟨s.x, s.y, s.p⟩

/-- **One turn without an overflow.** -/
theorem circleTurn_arc {r : Int} {s : Circle} (h : Round r s.arc) (hlt : s.x < s.y)
    (hr : r ≤ 16383) :
    (circleTurn s).arc = s.arc.turn ∧ (circleTurn s).mem = s.mem ∧
      (circleTurn s).plotted = s.plotted ∧
      ∀ v ∈ (circleTurn s).assigned, v ∈ s.assigned ∨ Fits16 v := by
  have hnext := h.turn hlt
  have hx0 : 0 ≤ s.x := h.x_nonneg
  have hxr : s.x ≤ r := h.x_le
  have hyr : s.y ≤ r := h.y_le
  have hx : Fits16 (s.x + 1) := by
    unfold Fits16
    omega
  have hy : Fits16 (s.y - 1) := by
    unfold Fits16
    omega
  have hp : Fits16 s.arc.turn.p := by
    have hbounds := hnext.p_bounds
    unfold Fits16
    omega
  unfold circleTurn
  unfold Arc.turn at hp ⊢
  by_cases hneg : s.p < 0
  · rw [if_pos hneg]
    rw [if_pos (show s.arc.p < 0 from hneg)] at hp ⊢
    have hp : Fits16 (s.p + (2 * (s.x + 1) + 1)) := hp
    rw [i16_eq hx]
    refine ⟨congrArg (Arc.mk _ _) (i16_eq hp), rfl, rfl, fun v hv => ?_⟩
    simp only [List.mem_append, List.mem_cons, List.not_mem_nil, or_false] at hv
    rcases hv with hv | rfl | rfl
    · exact Or.inl hv
    · exact Or.inr hx
    · exact Or.inr hp
  · rw [if_neg hneg]
    rw [if_neg (show ¬ s.arc.p < 0 from hneg)] at hp ⊢
    have hp : Fits16 (s.p + (2 * ((s.x + 1) - (s.y - 1)) + 1)) := hp
    rw [i16_eq hx, i16_eq hy]
    refine ⟨congrArg (Arc.mk _ _) (i16_eq hp), rfl, rfl, fun v hv => ?_⟩
    simp only [List.mem_append, List.mem_cons, List.not_mem_nil, or_false] at hv
    rcases hv with hv | rfl | rfl | rfl
    · exact Or.inl hv
    · exact Or.inr hx
    · exact Or.inr hy
    · exact Or.inr hp

section

variable {g : VbeModeInfo} {color : UInt32} {center : Point} {radius : UInt16} {m : Bytes}

/-- **The loop after `n` turns**: the point of the walk, the pixels of all points up to it, and no
value that was too large. -/
structure Drawn (g : VbeModeInfo) (color : UInt32) (center : Point) (radius : UInt16) (m : Bytes)
    (n : Nat) (s : Circle) : Prop where
  arc_eq : s.arc = arc radius.toNat n
  before : ∀ k < n, (arc radius.toNat k).x < (arc radius.toNat k).y
  plotted_eq : s.plotted = (List.range (n + 1)).flatMap fun k =>
    octants center (arc radius.toNat k).x (arc radius.toNat k).y
  fits : ∀ v ∈ s.assigned, Fits16 v
  mem_eq : s.mem = s.plotted.foldl (drawPixel g color) m

theorem Drawn.round {n : Nat} {s : Circle} (h : Drawn g color center radius m n s) :
    Round radius.toNat s.arc := by
  rw [h.arc_eq]
  exact round_arc (Int.natCast_nonneg _) h.before

theorem drawn_first (hr : radius.toNat ≤ 16383) :
    Drawn g color center radius m 0 ((firstCircle radius m).plot g color center) := by
  have hy : Fits16 radius.toNat := by
    unfold Fits16
    omega
  have hp : Fits16 (1 - radius.toNat) := by
    unfold Fits16
    omega
  have harc : ((firstCircle radius m).plot g color center).arc = arc radius.toNat 0 := by
    show (⟨0, i16 radius.toNat, i16 (1 - radius.toNat)⟩ : Arc) = ⟨0, radius.toNat, 1 - radius.toNat⟩
    rw [i16_eq hy, i16_eq hp]
  refine ⟨harc, fun k hk => absurd hk (Nat.not_lt_zero k), ?_, fun v hv => ?_, rfl⟩
  · have hplotted : ((firstCircle radius m).plot g color center).plotted =
        octants center ((firstCircle radius m).plot g color center).arc.x
          ((firstCircle radius m).plot g color center).arc.y := rfl
    rw [hplotted, harc]
    exact (List.append_nil _).symm
  · have hv : v ∈ [(0 : Int), radius.toNat, 1 - radius.toNat] := hv
    simp only [List.mem_cons, List.not_mem_nil, or_false] at hv
    rcases hv with rfl | rfl | rfl
    · exact ⟨by decide, by decide⟩
    · exact hy
    · exact hp

/-- **A turn and its pixels.** -/
theorem Drawn.succ {n : Nat} {s : Circle} (h : Drawn g color center radius m n s)
    (hr : radius.toNat ≤ 16383) (hlt : s.x < s.y) :
    Drawn g color center radius m (n + 1) ((circleTurn s).plot g color center) := by
  obtain ⟨harc, hmem, hplotted, hassigned⟩ := circleTurn_arc h.round hlt (by omega)
  have hnext : (circleTurn s).arc = arc radius.toNat (n + 1) := by
    rw [harc, h.arc_eq, arc_succ]
  refine ⟨hnext, fun k hk => ?_, ?_, fun v hv => (hassigned v hv).elim (h.fits v) id, ?_⟩
  · rcases Nat.lt_or_eq_of_le (Nat.le_of_lt_succ hk) with hk | rfl
    · exact h.before k hk
    · rw [← h.arc_eq]
      exact hlt
  · rw [List.range_succ, List.flatMap_append, List.flatMap_singleton, ← h.plotted_eq, ← hplotted,
      ← hnext]
    rfl
  · show (octants center _ _).foldl (drawPixel g color) (circleTurn s).mem =
      ((circleTurn s).plotted ++ octants center _ _).foldl (drawPixel g color) m
    rw [hplotted, hmem, List.foldl_append, ← h.mem_eq]

/-- **What is plotted**: the points of the walk in all eight octants. -/
theorem Drawn.plotted_iff {n : Nat} {s : Circle} (h : Drawn g color center radius m n s)
    (hfar : Inner center radius) {a b : Int} :
    Plotted center s.plotted a b ↔ ∃ k ≤ n,
      |a| = (arc radius.toNat k).x ∧ |b| = (arc radius.toNat k).y ∨
        |a| = (arc radius.toNat k).y ∧ |b| = (arc radius.toNat k).x := by
  have hround : ∀ k ≤ n, Round radius.toNat (arc radius.toNat k) := fun k hk =>
    round_arc (Int.natCast_nonneg _) fun j hj => h.before j (Nat.lt_of_lt_of_le hj hk)
  rw [h.plotted_eq]
  constructor
  · rintro ⟨p, hp, hX, hY⟩
    obtain ⟨k, hk, hp⟩ := List.mem_flatMap.mp hp
    have hk := Nat.le_of_lt_succ (List.mem_range.mp hk)
    have hround := hround k hk
    exact ⟨k, hk, (plotted_octants hfar hround.x_nonneg hround.x_le hround.y_nonneg
      hround.y_le).mp ⟨p, hp, hX, hY⟩⟩
  · rintro ⟨k, hk, hoctant⟩
    have hround := hround k hk
    obtain ⟨p, hp, hX, hY⟩ := (plotted_octants hfar hround.x_nonneg hround.x_le hround.y_nonneg
      hround.y_le).mpr hoctant
    exact ⟨p, List.mem_flatMap.mpr ⟨k, List.mem_range.mpr (Nat.lt_succ_of_le hk), hp⟩, hX, hY⟩

/-! ## 4. Circles are round and closed -/

/-- The loop reaches the diagonal. -/
theorem drawCircle_ends (g : VbeModeInfo) (color : UInt32) (center : Point) (m : Bytes)
    (hr : radius.toNat ≤ 16383) :
    ∃ s n, Drawn g color center radius m n s ∧ s.y ≤ s.x ∧
      ∀ fuel, radius.toNat ≤ fuel → drawCircle g color center radius m fuel = some s := by
  obtain ⟨N, hN, hstop, hbefore⟩ := arc_stops radius.toNat
  let cond : Circle → Bool := fun s => decide (s.x < s.y)
  let body : Circle → Circle := fun s => (circleTurn s).plot g color center
  let step : Nat → Circle := fun n => body^[n] ((firstCircle radius m).plot g color center)
  have hsucc : ∀ n, step (n + 1) = body (step n) := fun n => Function.iterate_succ_apply' _ _ _
  have hlt : ∀ n s, Drawn g color center radius m n s → n < N → s.x < s.y := by
    intro n s hs hn
    have hbefore := hbefore n hn
    rwa [← hs.arc_eq] at hbefore
  have hdrawn : ∀ n ≤ N, Drawn g color center radius m n (step n) := by
    intro n
    induction n with
    | zero => exact fun _ => drawn_first hr
    | succ n ih =>
      intro hn
      have hs := ih (Nat.le_of_lt hn)
      rw [hsucc]
      exact hs.succ hr (hlt n _ hs hn)
  have hlast := hdrawn N (Nat.le_refl N)
  have hend : (step N).y ≤ (step N).x := by
    rwa [← hlast.arc_eq] at hstop
  have hturn : ∀ k < N, cond (step k) = true ∧ body (step k) = step (k + 1) := fun k hk =>
    ⟨decide_eq_true (hlt k _ (hdrawn k (Nat.le_of_lt hk)) hk), (hsucc k).symm⟩
  exact ⟨step N, N, hlast, hend, fun fuel hfuel =>
    loop_steps hturn (decide_eq_false (Int.not_lt.mpr hend)) (Nat.le_trans hN hfuel)⟩

/-- **Circles are round and closed.**  The loop ends, no value is too large for its variable, the
pixels have the colour and all other bytes stay; the offsets plotted are symmetric, near the circle,
and in every column up to the diagonal. -/
theorem drawCircle_round (g : VbeModeInfo) (color : UInt32) (center : Point) (radius : UInt16)
    (m : Bytes) (hr : radius.toNat ≤ 16383) (hfar : Inner center radius) :
    ∃ s, (∀ fuel, radius.toNat ≤ fuel → drawCircle g color center radius m fuel = some s) ∧
      (∀ v ∈ s.assigned, Fits16 v) ∧ s.mem = s.plotted.foldl (drawPixel g color) m ∧
      (Whole g s.plotted → ∀ p ∈ s.plotted, HasColor g color s.mem p) ∧
      (∀ a, (∀ p ∈ s.plotted, ¬ Inside a (pixelAddress g p, g.bytesPerPixel)) → s.mem a = m a) ∧
      (∀ a b, Plotted center s.plotted a b → Plotted center s.plotted (-a) b ∧
        Plotted center s.plotted a (-b) ∧ Plotted center s.plotted b a) ∧
      (∀ a b, Plotted center s.plotted a b →
        |a ^ 2 + b ^ 2 - (radius.toNat : Int) ^ 2| ≤ max |a| |b|) ∧
      ∀ k : Nat, 2 * k ^ 2 ≤ radius.toNat ^ 2 → ∃ b, Plotted center s.plotted k b := by
  obtain ⟨s, n, hdrawn, hend, hrun⟩ := drawCircle_ends g color center m hr
  have hiff := fun a b : Int => hdrawn.plotted_iff hfar (a := a) (b := b)
  refine ⟨s, hrun, hdrawn.fits, hdrawn.mem_eq, fun hwhole p hp => ?_, fun a ha => ?_,
    fun a b hab => ?_, fun a b hab => ?_, fun k hk => ?_⟩
  · rw [hdrawn.mem_eq]
    exact hwhole.hasColor m hp
  · rw [hdrawn.mem_eq]
    exact foldl_drawPixel_out _ ha
  · obtain ⟨k, hk, hoctant⟩ := (hiff a b).mp hab
    refine ⟨(hiff _ _).mpr ⟨k, hk, ?_⟩, (hiff _ _).mpr ⟨k, hk, ?_⟩, (hiff _ _).mpr ⟨k, hk, ?_⟩⟩
    · rwa [abs_neg]
    · rwa [abs_neg]
    · exact hoctant.elim (fun h => Or.inr ⟨h.2, h.1⟩) fun h => Or.inl ⟨h.2, h.1⟩
  · obtain ⟨k, hk, hoctant⟩ := (hiff a b).mp hab
    have hround : Round radius.toNat (arc radius.toNat k) := round_arc (Int.natCast_nonneg _)
      fun j hj => hdrawn.before j (Nat.lt_of_lt_of_le hj hk)
    have hnear := abs_le.mpr hround.near
    rw [← sq_abs a, ← sq_abs b]
    rcases hoctant with ⟨ha, hb⟩ | ⟨ha, hb⟩
    · rw [ha, hb, sq, sq, sq]
      exact hnear
    · rw [ha, hb, max_comm, add_comm, sq, sq, sq]
      exact hnear
  · have hround := hdrawn.round
    have hcolumn : s.x = n := by
      have hx := arc_x radius.toNat n
      rwa [← hdrawn.arc_eq] at hx
    have hkn : k ≤ n := by
      by_contra hgt
      have hbehind := hround.behind hend (k := k) (by show s.x < k; omega)
      have hk : 2 * ((k : Int) * k) ≤ radius.toNat * radius.toNat := by
        have hk := Int.ofNat_le.mpr hk
        push_cast at hk
        rwa [sq, sq] at hk
      omega
    refine ⟨(arc radius.toNat k).y, (hiff _ _).mpr ⟨k, hkn, Or.inl ⟨?_, abs_of_nonneg ?_⟩⟩⟩
    · rw [arc_x]
      exact abs_of_nonneg (Int.natCast_nonneg k)
    · exact (round_arc (Int.natCast_nonneg _) fun j hj =>
        hdrawn.before j (Nat.lt_of_lt_of_le hj hkn)).y_nonneg

/-- The circle of radius 5 in the middle of the screen. -/
theorem drawCircle_five : ∃ s, drawCircle mode1024 0xFFFFFF ⟨512, 384⟩ 5 (fun _ => 0) 5 = some s ∧
    (∃ b, Plotted ⟨512, 384⟩ s.plotted 3 b) ∧
    ∀ p ∈ s.plotted, HasColor mode1024 0xFFFFFF s.mem p := by
  obtain ⟨s, hrun, _, _, hcolor, _, _, _, hcolumns⟩ := drawCircle_round mode1024 0xFFFFFF ⟨512, 384⟩
    5 (fun _ => 0) (by decide) (by decide)
  exact ⟨s, hrun 5 (by decide), hcolumns 3 (by decide), hcolor (Or.inl (by decide))⟩

end

end AmateurOs.Graphics
