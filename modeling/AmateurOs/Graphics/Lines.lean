/-
# Pixels and lines

`draw_pixel` and `draw_line` of `gfx/2d_gfx.h`.

* The loop of `draw_line` ends only where both coordinates equal those of the end: a line whose
  error term led it past that point would be drawn for ever.  The loop takes the turns of `walk`
  in its 16-bit variables (`Follows`), so that it gets there, in as many turns as the longer axis
  has steps, when no coordinate differs by more than 8191.
* Values on their way into an `int16_t` variable are computed as `int`.  They are kept in
  `assigned`, as they were before the conversion; the source has no such list.
-/
import AmateurOs.Lib.Raster
import AmateurOs.Lib.Run
import AmateurOs.Terminal.Write
import Mathlib.Data.List.Chain

namespace AmateurOs.Graphics

open AmateurOs.Lib AmateurOs.Terminal

/-! ## 1. Numbers of 16 bits -/

/-- What an `int16_t` variable keeps of an `int`. -/
def i16 (i : Int) : Int := (i + 32768) % 65536 - 32768

/-- An `int` that an `int16_t` variable keeps. -/
def Fits16 (i : Int) : Prop := -32768 ≤ i ∧ i ≤ 32767

theorem i16_eq {i : Int} (h : Fits16 i) : i16 i = i := by
  obtain ⟨hlow, hhigh⟩ := h
  unfold i16
  omega

theorem toNat_ofInt16 {i : Int} (hlow : 0 ≤ i) (hhigh : i < 65536) :
    ((UInt16.ofInt i).toNat : Int) = i := by
  unfold UInt16.ofInt
  rw [UInt16.toNat_ofNat']
  omega

/-! ## 2. Pixels -/

/-- `Point`. -/
structure Point where
  X : UInt16
  Y : UInt16
deriving DecidableEq

/-- Where the bytes of a pixel begin. -/
def pixelAddress (g : VbeModeInfo) (p : Point) : Nat :=
  u32 (g.physicalBasePointer.toNat +
    (p.Y.toNat * g.xResolution.toNat + p.X.toNat) * g.bytesPerPixel)

/-- `draw_pixel`. -/
def drawPixel (g : VbeModeInfo) (color : UInt32) (m : Bytes) (p : Point) : Bytes :=
  blit m (pixelAddress g p) g.bytesPerPixel (wordByte color.toNat)

/-- The bytes of a pixel have the colour. -/
def HasColor (g : VbeModeInfo) (color : UInt32) (m : Bytes) (p : Point) : Prop :=
  ∀ k < g.bytesPerPixel, m (pixelAddress g p + k) = wordByte color.toNat k

/-- No pixel of the points is cut where the addresses wrap: there is a whole number of pixels, or
none of the points lies behind. -/
def Whole (g : VbeModeInfo) (ps : List Point) : Prop :=
  g.bytesPerPixel ∣ 4294967296 ∨ ∀ p ∈ ps, g.physicalBasePointer.toNat +
    (p.Y.toNat * g.xResolution.toNat + p.X.toNat) * g.bytesPerPixel < 4294967296

section

variable {g : VbeModeInfo} {color : UInt32} {p q : Point} {ps : List Point}

theorem Whole.address_mod (h : Whole g ps) (hp : p ∈ ps) :
    pixelAddress g p % g.bytesPerPixel = g.physicalBasePointer.toNat % g.bytesPerPixel := by
  unfold pixelAddress
  rcases h with hdvd | hfits
  · rw [u32, Nat.mod_mod_of_dvd _ hdvd, Nat.add_mul_mod_self_right]
  · rw [u32_eq (hfits p hp), Nat.add_mul_mod_self_right]

/-- Two of the points have the same bytes or none in common. -/
theorem Whole.apart (h : Whole g ps) (hp : p ∈ ps) (hq : q ∈ ps) :
    pixelAddress g p = pixelAddress g q ∨
      Apart (pixelAddress g p, g.bytesPerPixel) (pixelAddress g q, g.bytesPerPixel) := by
  have hmod := (h.address_mod hp).trans (h.address_mod hq).symm
  have hdiv := Nat.div_add_mod (pixelAddress g p) g.bytesPerPixel
  have hdiv' := Nat.div_add_mod (pixelAddress g q) g.bytesPerPixel
  unfold Apart
  rcases Nat.lt_trichotomy (pixelAddress g p / g.bytesPerPixel)
      (pixelAddress g q / g.bytesPerPixel) with hlt | heq | hgt
  · have hle := Nat.mul_le_mul_left g.bytesPerPixel hlt
    rw [Nat.succ_eq_add_one, Nat.mul_add, Nat.mul_one] at hle
    exact Or.inr (Or.inl (by simp only; omega))
  · exact Or.inl (by rw [← hdiv, ← hdiv', heq, hmod])
  · have hle := Nat.mul_le_mul_left g.bytesPerPixel hgt
    rw [Nat.succ_eq_add_one, Nat.mul_add, Nat.mul_one] at hle
    exact Or.inr (Or.inr (by simp only; omega))

theorem drawPixel_hasColor (m : Bytes) : HasColor g color (drawPixel g color m p) p :=
  fun _ hk => blit_add hk

/-- A pixel keeps the colour while others of it are drawn. -/
theorem HasColor.kept {m : Bytes} (h : HasColor g color m p)
    (hapart : pixelAddress g p = pixelAddress g q ∨
      Apart (pixelAddress g p, g.bytesPerPixel) (pixelAddress g q, g.bytesPerPixel)) :
    HasColor g color (drawPixel g color m q) p := by
  rcases hapart with hsame | hapart
  · intro k hk
    rw [hsame]
    exact drawPixel_hasColor m k hk
  · intro k hk
    have hout : ¬ Inside (pixelAddress g p + k) (pixelAddress g q, g.bytesPerPixel) :=
      hapart.not_inside ⟨Nat.le_add_right _ _, Nat.add_lt_add_left hk _⟩
    rw [← h k hk]
    exact if_neg hout

/-- **Every point drawn has the colour.** -/
theorem Whole.hasColor (h : Whole g ps) (m : Bytes) (hp : p ∈ ps) :
    HasColor g color (ps.foldl (drawPixel g color) m) p := by
  have hall : ∀ (qs : List Point) {m : Bytes}, (∀ q ∈ qs, q ∈ ps) → p ∈ qs ∨ HasColor g color m p →
      HasColor g color (qs.foldl (drawPixel g color) m) p := by
    intro qs
    induction qs with
    | nil => exact fun _ h => h.resolve_left List.not_mem_nil
    | cons q qs ih =>
      intro m hqs hcolor
      refine ih (fun r hr => hqs r (List.mem_cons_of_mem _ hr)) ?_
      rcases hcolor with hmem | hcolor
      · rcases List.mem_cons.mp hmem with rfl | hmem
        · exact Or.inr (drawPixel_hasColor m)
        · exact Or.inl hmem
      · exact Or.inr (hcolor.kept (h.apart hp (hqs q List.mem_cons_self)))
  exact hall ps (fun _ hq => hq) (Or.inl hp)

/-- The bytes of no point drawn stay. -/
theorem foldl_drawPixel_out {a : Nat} : ∀ (ps : List Point) {m : Bytes},
    (∀ p ∈ ps, ¬ Inside a (pixelAddress g p, g.bytesPerPixel)) →
      ps.foldl (drawPixel g color) m a = m a := by
  intro ps
  induction ps with
  | nil => exact fun _ => rfl
  | cons q ps ih =>
    intro m h
    exact (ih fun p hp => h p (List.mem_cons_of_mem _ hp)).trans
      (if_neg (h q List.mem_cons_self))

end

/-! ## 3. `draw_line` -/

/-- The macro `abs`. -/
def cAbs (a : Int) : Int := if a > 0 then a else -a

/-- The variables of `draw_line` that its loop only reads. -/
structure Slope where
  deltaX : Int
  deltaY : Int
  signX : Int
  signY : Int

/-- The variables that the loop changes, the pixels it has plotted, and the values it has left in
`int16_t` variables. -/
structure Line where
  start : Point
  error : Int
  mem : Bytes
  plotted : List Point
  assigned : List Int

def slope (start finish : Point) : Slope where
  deltaX := i16 (cAbs ((finish.X.toNat : Int) - start.X.toNat))
  deltaY := i16 (-cAbs ((finish.Y.toNat : Int) - start.Y.toNat))
  signX := if start.X < finish.X then 1 else -1
  signY := if start.Y < finish.Y then 1 else -1

/-- The call of `draw_pixel`. -/
def Line.plot (g : VbeModeInfo) (color : UInt32) (s : Line) : Line :=
  { s with mem := drawPixel g color s.mem s.start, plotted := s.plotted ++ [s.start] }

/-- The rest of a turn of the loop. -/
def lineTurn (d : Slope) (s : Line) : Line :=
  let errorX2 := i16 (s.error * 2)
  let s := { s with assigned := s.assigned ++ [s.error * 2] }
  let s := if errorX2 ≥ d.deltaY then
      { s with
        error := i16 (s.error + d.deltaY)
        start := ⟨UInt16.ofInt (s.start.X.toNat + d.signX), s.start.Y⟩
        assigned := s.assigned ++ [s.error + d.deltaY] }
    else s
  if errorX2 ≤ d.deltaX then
    { s with
      error := i16 (s.error + d.deltaX)
      start := ⟨s.start.X, UInt16.ofInt (s.start.Y.toNat + d.signY)⟩
      assigned := s.assigned ++ [s.error + d.deltaX] }
  else s

/-- The variables when the loop begins. -/
def firstLine (start finish : Point) (m : Bytes) : Line where
  start := start
  error := i16 ((slope start finish).deltaX + (slope start finish).deltaY)
  mem := m
  plotted := []
  assigned := [cAbs ((finish.X.toNat : Int) - start.X.toNat),
    -cAbs ((finish.Y.toNat : Int) - start.Y.toNat), (slope start finish).signX,
    (slope start finish).signY, (slope start finish).deltaX + (slope start finish).deltaY]

/-- `draw_line`: a pixel is plotted, the end is looked for, and the loop goes round. -/
def drawLine (g : VbeModeInfo) (color : UInt32) (start finish : Point) (m : Bytes) (fuel : Nat) :
    Option Line :=
  loop (fun s => !(s.start.X == finish.X && s.start.Y == finish.Y))
    (fun s => (lineTurn (slope start finish) s).plot g color) fuel
    ((firstLine start finish m).plot g color)

/-! ## 4. The loop follows the walk -/

/-- The distance of two points along each axis. -/
def columns (p q : Point) : Nat := ((q.X.toNat : Int) - p.X.toNat).natAbs

def rows (p q : Point) : Nat := ((q.Y.toNat : Int) - p.Y.toNat).natAbs

/-- **Neighbours on a line**: one apart along its longer axis, at most one along the other. -/
structure Beside (start finish p q : Point) : Prop where
  columns_le : columns p q ≤ 1
  rows_le : rows p q ≤ 1
  flat : rows start finish ≤ columns start finish → columns p q = 1
  steep : columns start finish ≤ rows start finish → rows p q = 1

/-- The direction of a coordinate: the distance has the sign that the comparison gives. -/
theorem directed (u v : UInt16) :
    (v.toNat : Int) = u.toNat +
      (if u < v then 1 else -1) * (((v.toNat : Int) - u.toNat).natAbs : Int) := by
  by_cases h : u < v
  · have hlt : u.toNat < v.toNat := UInt16.lt_iff_toNat_lt.mp h
    rw [if_pos h]
    omega
  · have hle : ¬ u.toNat < v.toNat := fun hlt => h (UInt16.lt_iff_toNat_lt.mpr hlt)
    rw [if_neg h]
    omega

theorem cAbs_eq (i : Int) : cAbs i = i.natAbs := by
  unfold cAbs
  split <;> omega

/-- **One turn without an overflow**, with both comparisons in place. -/
theorem lineTurn_eq {d : Slope} {s : Line} (h2 : Fits16 (s.error * 2))
    (hx : Fits16 (s.error + d.deltaY)) (hy : Fits16 (s.error + d.deltaX))
    (hxy : Fits16 (s.error + d.deltaY + d.deltaX)) :
    lineTurn d s =
      { start :=
          ⟨if s.error * 2 ≥ d.deltaY then UInt16.ofInt (s.start.X.toNat + d.signX) else s.start.X,
            if s.error * 2 ≤ d.deltaX then UInt16.ofInt (s.start.Y.toNat + d.signY)
            else s.start.Y⟩
        error := s.error + (if s.error * 2 ≥ d.deltaY then d.deltaY else 0) +
          (if s.error * 2 ≤ d.deltaX then d.deltaX else 0)
        mem := s.mem
        plotted := s.plotted
        assigned := s.assigned ++ [s.error * 2] ++
          (if s.error * 2 ≥ d.deltaY then [s.error + d.deltaY] else []) ++
          (if s.error * 2 ≤ d.deltaX then
            [s.error + (if s.error * 2 ≥ d.deltaY then d.deltaY else 0) + d.deltaX] else []) } := by
  unfold lineTurn
  simp only [i16_eq h2]
  by_cases hcol : s.error * 2 ≥ d.deltaY
  · by_cases hrow : s.error * 2 ≤ d.deltaX
    · simp only [if_pos hcol, if_pos hrow, i16_eq hx, i16_eq hxy]
    · simp only [if_pos hcol, if_neg hrow, i16_eq hx, Int.add_zero, List.append_nil]
  · by_cases hrow : s.error * 2 ≤ d.deltaX
    · simp only [if_neg hcol, if_pos hrow, i16_eq hy, Int.add_zero, List.append_nil]
    · simp only [if_neg hcol, if_neg hrow, Int.add_zero, List.append_nil]

section

variable {g : VbeModeInfo} {color : UInt32} {start finish : Point} {m : Bytes}

/-- What the loop reads, without an overflow. -/
theorem slope_eq (hc : columns start finish ≤ 8191) (hr : rows start finish ≤ 8191) :
    slope start finish =
      { deltaX := columns start finish
        deltaY := -(rows start finish : Int)
        signX := if start.X < finish.X then 1 else -1
        signY := if start.Y < finish.Y then 1 else -1 } := by
  have hx : Fits16 (columns start finish : Int) := by
    unfold Fits16
    omega
  have hy : Fits16 (-(rows start finish : Int)) := by
    unfold Fits16
    omega
  unfold slope
  rw [cAbs_eq, cAbs_eq]
  exact congrArg₂ (fun dx dy => Slope.mk dx dy _ _) (i16_eq hx) (i16_eq hy)

/-- **The variables after `n` turns** are those of the walk. -/
structure Tracks (start finish : Point) (n : Nat) (s : Line) : Prop where
  x_eq : (s.start.X.toNat : Int) = start.X.toNat +
    (slope start finish).signX * (walk (columns start finish) (rows start finish) n).xs
  y_eq : (s.start.Y.toNat : Int) = start.Y.toNat +
    (slope start finish).signY * (walk (columns start finish) (rows start finish) n).ys
  error_eq : s.error = (walk (columns start finish) (rows start finish) n).err

theorem online (start finish : Point) {n : Nat}
    (hn : n ≤ max (columns start finish) (rows start finish)) :
    OnLine (columns start finish) (rows start finish) n
      (walk (columns start finish) (rows start finish) n) :=
  walk_onLine (Int.natCast_nonneg _) (Int.natCast_nonneg _) (by omega)

/-- A coordinate that goes one step along, or stays. -/
theorem moved {u v w : UInt16} {xs xs' : Int} {step : Prop} [Decidable step]
    (hw : (w.toNat : Int) = u.toNat + (if u < v then 1 else -1) * xs)
    (hxs' : xs' = if step then xs + 1 else xs) (hlow : 0 ≤ xs')
    (hhigh : xs' ≤ ((v.toNat : Int) - u.toNat).natAbs) :
    ((if step then UInt16.ofInt (w.toNat + if u < v then 1 else -1) else w).toNat : Int) =
      u.toNat + (if u < v then 1 else -1) * xs' := by
  have hdir := directed u v
  have hu := u.toNat_lt
  have hv := v.toNat_lt
  by_cases hstep : step
  · rw [if_pos hstep] at hxs' ⊢
    subst hxs'
    by_cases hlt : u < v
    · rw [if_pos hlt] at hw hdir ⊢
      rw [toNat_ofInt16 (by omega) (by omega)]
      omega
    · rw [if_neg hlt] at hw hdir ⊢
      rw [toNat_ofInt16 (by omega) (by omega)]
      omega
  · rw [if_neg hstep] at hxs' ⊢
    rw [hw, hxs']

/-- A step of one along a coordinate, as a distance. -/
theorem moved_dist {u v p q : UInt16} {xs xs' : Int}
    (hp : (p.toNat : Int) = u.toNat + (if u < v then 1 else -1) * xs)
    (hq : (q.toNat : Int) = u.toNat + (if u < v then 1 else -1) * xs') :
    ((q.toNat : Int) - p.toNat).natAbs = (xs' - xs).natAbs := by
  rw [hp, hq]
  split <;> omega

/-- **One turn**: the next point of the walk, and no value that is too large. -/
theorem Tracks.turn {n : Nat} {s : Line} (h : Tracks start finish n s)
    (hc : columns start finish ≤ 8191) (hr : rows start finish ≤ 8191)
    (hn : n < max (columns start finish) (rows start finish)) :
    Tracks start finish (n + 1) (lineTurn (slope start finish) s) ∧
      (lineTurn (slope start finish) s).mem = s.mem ∧
      (lineTurn (slope start finish) s).plotted = s.plotted ∧
      ∀ v ∈ (lineTurn (slope start finish) s).assigned, v ∈ s.assigned ∨ Fits16 v := by
  have hline := online start finish (Nat.le_of_lt hn)
  have hnext := @online start finish (n + 1) hn
  have hslope := slope_eq hc hr
  obtain ⟨hx, hy, herr⟩ := h
  have hlow := hline.le_err
  have hhigh := hline.err_le
  rw [← herr] at hlow hhigh
  have h2 : Fits16 (s.error * 2) := by
    unfold Fits16
    omega
  have hminus : Fits16 (s.error + (slope start finish).deltaY) := by
    rw [hslope]
    show Fits16 (s.error + -(rows start finish : Int))
    unfold Fits16
    omega
  have hplus : Fits16 (s.error + (slope start finish).deltaX) := by
    rw [hslope]
    show Fits16 (s.error + (columns start finish : Int))
    unfold Fits16
    omega
  have hboth : Fits16 (s.error + (slope start finish).deltaY + (slope start finish).deltaX) := by
    rw [hslope]
    show Fits16 (s.error + -(rows start finish : Int) + columns start finish)
    unfold Fits16
    omega
  -- the comparisons of the source are those of the walk
  have hcol : s.error * 2 ≥ (slope start finish).deltaY ↔ -(rows start finish : Int) ≤
      2 * (walk (columns start finish) (rows start finish) n).err := by
    rw [hslope, ← herr]
    show s.error * 2 ≥ -(rows start finish : Int) ↔ _
    omega
  have hrow : s.error * 2 ≤ (slope start finish).deltaX ↔
      2 * (walk (columns start finish) (rows start finish) n).err ≤ columns start finish := by
    rw [hslope, ← herr]
    show s.error * 2 ≤ (columns start finish : Int) ↔ _
    omega
  have hwalk := walk_succ (columns start finish) (rows start finish) n
  have hxs := congrArg Walk.xs hwalk
  have hys := congrArg Walk.ys hwalk
  simp only [Walk.turn, ← hcol] at hxs
  simp only [Walk.turn, ← hrow] at hys
  rw [lineTurn_eq h2 hminus hplus hboth]
  refine ⟨⟨moved hx hxs hnext.xs_nonneg hnext.xs_le, moved hy hys hnext.ys_nonneg hnext.ys_le, ?_⟩,
    rfl, rfl, fun v hv => ?_⟩
  · rw [hwalk]
    simp only [hcol, hrow]
    rw [herr, hslope]
    rfl
  · simp only [List.mem_append, List.mem_singleton] at hv
    rcases hv with ((hv | rfl) | hv) | hv
    · exact Or.inl hv
    · exact Or.inr h2
    · split at hv
      · obtain rfl := List.mem_singleton.mp hv
        exact Or.inr hminus
      · cases hv
    · split at hv
      · obtain rfl := List.mem_singleton.mp hv
        right
        split
        · exact hboth
        · rwa [Int.add_zero]
      · cases hv

/-- Two points of the walk that follow each other are beside each other. -/
theorem Tracks.beside {n : Nat} {s s' : Line} (h : Tracks start finish n s)
    (h' : Tracks start finish (n + 1) s')
    (hn : n < max (columns start finish) (rows start finish)) :
    Beside start finish s.start s'.start := by
  have hline := online start finish (Nat.le_of_lt hn)
  have hnext := @online start finish (n + 1) hn
  have hcolumns := moved_dist h.x_eq h'.x_eq
  have hrows := moved_dist h.y_eq h'.y_eq
  have hwalk := walk_succ (columns start finish) (rows start finish) n
  have hxs := congrArg Walk.xs hwalk
  have hys := congrArg Walk.ys hwalk
  simp only [Walk.turn] at hxs hys
  refine ⟨?_, ?_, fun hflat => ?_, fun hsteep => ?_⟩
  · refine Nat.le_trans (Nat.le_of_eq hcolumns) ?_
    rw [hxs]
    split <;> omega
  · refine Nat.le_trans (Nat.le_of_eq hrows) ?_
    rw [hys]
    split <;> omega
  · have hnow := hline.columns (by omega)
    have hthen := hnext.columns (by omega)
    refine hcolumns.trans ?_
    omega
  · have hnow := hline.rows (by omega)
    have hthen := hnext.rows (by omega)
    refine hrows.trans ?_
    omega

/-- The loop goes on until the walk has reached its end. -/
theorem Tracks.not_done {n : Nat} {s : Line} (h : Tracks start finish n s)
    (hn : n < max (columns start finish) (rows start finish)) :
    (!(s.start.X == finish.X && s.start.Y == finish.Y)) = true := by
  have hline := online start finish (Nat.le_of_lt hn)
  rw [Bool.not_eq_true', Bool.and_eq_false_iff]
  by_contra hboth
  rw [not_or, Bool.not_eq_false, Bool.not_eq_false, beq_iff_eq, beq_iff_eq] at hboth
  refine hline.not_end (by omega) ⟨?_, ?_⟩
  · have hdist := @moved_dist start.X finish.X start.X _ 0 _
      (by rw [Int.mul_zero, Int.add_zero]) h.x_eq
    have hpos := hline.xs_nonneg
    rw [hboth.1] at hdist
    have hcolumns : columns start finish = _ := hdist
    omega
  · have hdist := @moved_dist start.Y finish.Y start.Y _ 0 _
      (by rw [Int.mul_zero, Int.add_zero]) h.y_eq
    have hpos := hline.ys_nonneg
    rw [hboth.2] at hdist
    have hrows : rows start finish = _ := hdist
    omega

/-- And no longer. -/
theorem Tracks.done {n : Nat} {s : Line} (h : Tracks start finish n s)
    (hn : n = max (columns start finish) (rows start finish)) : s.start = finish := by
  obtain ⟨hxs, hys⟩ := walk_end (Int.natCast_nonneg (columns start finish))
    (Int.natCast_nonneg (rows start finish)) (n := n) (by omega)
  have hx := h.x_eq
  have hy := h.y_eq
  rw [hxs] at hx
  rw [hys] at hy
  have hX : s.start.X = finish.X :=
    UInt16.toNat_inj.mp (Int.ofNat_inj.mp (hx.trans (directed _ _).symm))
  have hY : s.start.Y = finish.Y :=
    UInt16.toNat_inj.mp (Int.ofNat_inj.mp (hy.trans (directed _ _).symm))
  calc s.start = ⟨s.start.X, s.start.Y⟩ := rfl
    _ = finish := by rw [hX, hY]

/-! ## 5. Lines end -/

/-- **The loop after `n` turns**: it tracks the walk, its pixels are neighbours, and no value was
too large. -/
structure Follows (g : VbeModeInfo) (color : UInt32) (start finish : Point) (m : Bytes) (n : Nat)
    (s : Line) : Prop extends Tracks start finish n s where
  length : s.plotted.length = n + 1
  head : s.plotted.head? = some start
  last : s.plotted.getLast? = some s.start
  chain : s.plotted.IsChain (Beside start finish)
  fits : ∀ v ∈ s.assigned, Fits16 v
  mem_eq : s.mem = s.plotted.foldl (drawPixel g color) m

/-- Before the first turn. -/
theorem follows_first (hc : columns start finish ≤ 8191) (hr : rows start finish ≤ 8191) :
    Follows g color start finish m 0 ((firstLine start finish m).plot g color) := by
  have hslope := slope_eq hc hr
  have hsum : Fits16 ((columns start finish : Int) + -(rows start finish : Int)) := by
    unfold Fits16
    omega
  have herror : i16 ((slope start finish).deltaX + (slope start finish).deltaY) =
      (columns start finish : Int) + -(rows start finish : Int) := by
    rw [hslope]
    exact i16_eq hsum
  refine ⟨⟨?_, ?_, ?_⟩, rfl, rfl, rfl, List.IsChain.singleton _, ?_, rfl⟩
  · show (start.X.toNat : Int) = start.X.toNat + (slope start finish).signX * 0
    rw [Int.mul_zero, Int.add_zero]
  · show (start.Y.toNat : Int) = start.Y.toNat + (slope start finish).signY * 0
    rw [Int.mul_zero, Int.add_zero]
  · show i16 ((slope start finish).deltaX + (slope start finish).deltaY) =
      (columns start finish : Int) - rows start finish
    rw [herror, Int.sub_eq_add_neg]
  · have hx : Fits16 (columns start finish : Int) := by
      unfold Fits16
      omega
    have hy : Fits16 (-(rows start finish : Int)) := by
      unfold Fits16
      omega
    have hsign : ∀ u v : UInt16, Fits16 (if u < v then 1 else -1) := fun u v => by
      unfold Fits16
      split <;> omega
    intro v hv
    have hv : v ∈ [cAbs ((finish.X.toNat : Int) - start.X.toNat),
        -cAbs ((finish.Y.toNat : Int) - start.Y.toNat), (slope start finish).signX,
        (slope start finish).signY, (slope start finish).deltaX + (slope start finish).deltaY] := hv
    rw [cAbs_eq, cAbs_eq, hslope] at hv
    simp only [List.mem_cons, List.not_mem_nil, or_false] at hv
    rcases hv with rfl | rfl | rfl | rfl | rfl
    · exact hx
    · exact hy
    · exact hsign _ _
    · exact hsign _ _
    · exact hsum

/-- **A turn and its pixel.** -/
theorem Follows.succ {n : Nat} {s : Line} (h : Follows g color start finish m n s)
    (hc : columns start finish ≤ 8191) (hr : rows start finish ≤ 8191)
    (hn : n < max (columns start finish) (rows start finish)) :
    Follows g color start finish m (n + 1)
      ((lineTurn (slope start finish) s).plot g color) := by
  obtain ⟨htracks, hmem, hplotted, hassigned⟩ := h.toTracks.turn hc hr hn
  refine ⟨⟨htracks.x_eq, htracks.y_eq, htracks.error_eq⟩, ?_, ?_, List.getLast?_concat, ?_,
    fun v hv => (hassigned v hv).elim (h.fits v) id, ?_⟩
  · show ((lineTurn (slope start finish) s).plotted ++ _).length = _
    rw [hplotted, List.length_append, h.length]
    rfl
  · show ((lineTurn (slope start finish) s).plotted ++ _).head? = _
    rw [hplotted, List.head?_append, h.head]
    rfl
  · show ((lineTurn (slope start finish) s).plotted ++ [(lineTurn (slope start finish) s).start]
      ).IsChain _
    rw [hplotted]
    refine h.chain.append (List.IsChain.singleton _) fun p hp q hq => ?_
    rw [h.last] at hp
    obtain rfl := Option.some.inj hp
    obtain rfl : (lineTurn (slope start finish) s).start = q := Option.some.inj hq
    exact h.toTracks.beside htracks hn
  · show drawPixel g color (lineTurn (slope start finish) s).mem _ =
      ((lineTurn (slope start finish) s).plotted ++ _).foldl _ _
    rw [hplotted, hmem, List.foldl_append, ← h.mem_eq]
    rfl

/-- **Lines end where they should.**  The loop takes as many turns as the longer axis has steps, the
first pixel is `start`, the last one the end, each is beside the one before, and every value that
is left in an `int16_t` variable fits.  The pixels have the colour, and all other bytes stay. -/
theorem drawLine_reaches_end (g : VbeModeInfo) (color : UInt32) (start finish : Point) (m : Bytes)
    (hc : columns start finish ≤ 8191) (hr : rows start finish ≤ 8191) :
    ∃ s, (∀ fuel, max (columns start finish) (rows start finish) ≤ fuel →
        drawLine g color start finish m fuel = some s) ∧
      s.plotted.length = max (columns start finish) (rows start finish) + 1 ∧
      s.plotted.head? = some start ∧ s.plotted.getLast? = some finish ∧
      s.plotted.IsChain (Beside start finish) ∧ (∀ v ∈ s.assigned, Fits16 v) ∧
      s.mem = s.plotted.foldl (drawPixel g color) m ∧
      (Whole g s.plotted → ∀ p ∈ s.plotted, HasColor g color s.mem p) ∧
      ∀ a, (∀ p ∈ s.plotted, ¬ Inside a (pixelAddress g p, g.bytesPerPixel)) → s.mem a = m a := by
  let cond : Line → Bool := fun s => !(s.start.X == finish.X && s.start.Y == finish.Y)
  let body : Line → Line := fun s => (lineTurn (slope start finish) s).plot g color
  let step : Nat → Line := fun n => body^[n] ((firstLine start finish m).plot g color)
  have hsucc : ∀ n, step (n + 1) = body (step n) := fun n => Function.iterate_succ_apply' _ _ _
  have hfollows : ∀ n ≤ max (columns start finish) (rows start finish),
      Follows g color start finish m n (step n) := by
    intro n
    induction n with
    | zero => exact fun _ => follows_first hc hr
    | succ n ih =>
      intro hn
      rw [hsucc]
      exact (ih (Nat.le_of_lt hn)).succ hc hr hn
  have hlast := hfollows _ (Nat.le_refl _)
  have hend := hlast.toTracks.done rfl
  have hturn : ∀ k < max (columns start finish) (rows start finish),
      cond (step k) = true ∧ body (step k) = step (k + 1) := fun k hk =>
    ⟨(hfollows k (Nat.le_of_lt hk)).toTracks.not_done hk, (hsucc k).symm⟩
  have hstop : cond (step (max (columns start finish) (rows start finish))) = false := by
    show (!((step _).start.X == finish.X && (step _).start.Y == finish.Y)) = false
    rw [hend, beq_self_eq_true, beq_self_eq_true]
    rfl
  refine ⟨step (max (columns start finish) (rows start finish)),
    fun fuel hfuel => loop_steps hturn hstop hfuel, hlast.length, hlast.head, ?_, hlast.chain,
    hlast.fits, hlast.mem_eq, fun hwhole p hp => ?_, fun a ha => ?_⟩
  · rw [hlast.last, hend]
  · rw [hlast.mem_eq]
    exact hwhole.hasColor m hp
  · rw [hlast.mem_eq]
    exact foldl_drawPixel_out _ ha

/-- A line of six pixels, up and to the right. -/
theorem drawLine_six : ∃ s, drawLine mode1024 0xFFFFFF ⟨2, 3⟩ ⟨7, 1⟩ (fun _ => 0) 5 = some s ∧
    s.plotted.length = 6 ∧ s.plotted.getLast? = some ⟨7, 1⟩ ∧
    ∀ p ∈ s.plotted, HasColor mode1024 0xFFFFFF s.mem p := by
  obtain ⟨s, hrun, hlength, _, hlast, _, _, _, hcolor, _⟩ := drawLine_reaches_end mode1024 0xFFFFFF
    ⟨2, 3⟩ ⟨7, 1⟩ (fun _ => 0) (by decide) (by decide)
  exact ⟨s, hrun 5 (by decide), hlength, hlast, hcolor (Or.inl (by decide))⟩

end

end AmateurOs.Graphics
