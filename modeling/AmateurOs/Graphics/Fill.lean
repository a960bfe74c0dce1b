/-
# `boundary_fill`

The recursive fill of `gfx/2d_gfx.h`, on a frame buffer with 32 bits per pixel.

* The test of a pixel goes byte by byte: it is painted when some byte is neither that of the fill
  colour nor that of the boundary.  So a pixel of a third colour whose bytes are each taken from one
  of the two is not painted (`Mixture`).
* The callers take `color - 1` for the boundary.  That is one byte apart from `color`, and there are
  no mixtures, unless the last byte of `color` is 0: red on white is not filled.
* `flood_all` is the rule for the recursion.  The pixels of the screen are apart from each other,
  and no call leaves the screen where no pixel to be painted lies on its edge.
-/
import AmateurOs.Graphics.Lines
import AmateurOs.Lib.Flood
import Mathlib.Data.Finite.Prod
import Mathlib.Data.Set.Finite.Basic

namespace AmateurOs.Graphics

open AmateurOs.Lib AmateurOs.Terminal

/-! ## 1. `boundary_fill` -/

/-- The loop that sets `draw`. -/
def draws (g : VbeModeInfo) (fill boundary : UInt32) (m : Bytes) (p : Point) : Bool :=
  (List.range g.bytesPerPixel).any fun temp =>
    m (pixelAddress g p + temp) != wordByte fill.toNat temp &&
      m (pixelAddress g p + temp) != wordByte boundary.toNat temp

/-- `boundary_fill`; the fuel bounds the depth of the recursion.  The stores are those of
`draw_pixel`. -/
def boundaryFill (g : VbeModeInfo) (fill boundary : UInt32) : Nat → Point → Bytes → Option Bytes
  | 0, _, _ => none
  | fuel + 1, p, m =>
    if draws g fill boundary m p then do
      let m ← boundaryFill g fill boundary fuel ⟨p.X + 1, p.Y⟩ (drawPixel g fill m p)
      let m ← boundaryFill g fill boundary fuel ⟨p.X - 1, p.Y⟩ m
      let m ← boundaryFill g fill boundary fuel ⟨p.X, p.Y + 1⟩ m
      boundaryFill g fill boundary fuel ⟨p.X, p.Y - 1⟩ m
    else some m

/-- The pixels around a pixel, in the order of the calls. -/
def around (p : Point) : List Point :=
  [⟨p.X + 1, p.Y⟩, ⟨p.X - 1, p.Y⟩, ⟨p.X, p.Y + 1⟩, ⟨p.X, p.Y - 1⟩]

theorem boundaryFill_eq (g : VbeModeInfo) (fill boundary : UInt32) (fuel : Nat) (p : Point)
    (m : Bytes) : boundaryFill g fill boundary fuel p m =
      flood (draws g fill boundary) (fun p m => drawPixel g fill m p) around fuel p m := by
  induction fuel generalizing p m with
  | zero => rfl
  | succ fuel ih =>
    unfold boundaryFill flood
    simp only [ih, around, List.foldlM_cons, List.foldlM_nil, bind_pure]

/-! ## 2. The screen -/

/-- **A frame buffer of 32 bits per pixel** that lies inside the address space. -/
structure Screen32 (g : VbeModeInfo) : Prop where
  bits : g.bitsPerPixel = 32
  fits : g.physicalBasePointer.toNat + g.xResolution.toNat * g.yResolution.toNat * 4 ≤ 4294967296

structure OnScreen (g : VbeModeInfo) (p : Point) : Prop where
  column : p.X.toNat < g.xResolution.toNat
  row : p.Y.toNat < g.yResolution.toNat

/-- A pixel of the first or the last column or row. -/
def OnEdge (g : VbeModeInfo) (p : Point) : Prop :=
  p.X.toNat = 0 ∨ p.X.toNat + 1 = g.xResolution.toNat ∨ p.Y.toNat = 0 ∨
    p.Y.toNat + 1 = g.yResolution.toNat

/-- The bytes of a pixel. -/
def pixelBytes (g : VbeModeInfo) (p : Point) : Nat × Nat := (pixelAddress g p, 4)

/-- The colour of a pixel. -/
def pixelColor (g : VbeModeInfo) (m : Bytes) (p : Point) : Nat := le32 m (pixelAddress g p)

/-- **The pixels connected with the seed** through pixels of one kind, each beside the one
before. -/
inductive Connected (g : VbeModeInfo) (kind : Point → Prop) (seed : Point) : Point → Prop
  | seed (hscreen : OnScreen g seed) (hkind : kind seed) : Connected g kind seed seed
  | step {p q : Point} (hp : Connected g kind seed p) (hbeside : columns p q + rows p q = 1)
      (hscreen : OnScreen g q) (hkind : kind q) : Connected g kind seed q

section

variable {g : VbeModeInfo} {p q : Point}

theorem Screen32.bytesPerPixel (hg : Screen32 g) : g.bytesPerPixel = 4 := by
  unfold VbeModeInfo.bytesPerPixel
  rw [hg.bits]
  rfl

/-- The pixels lie one behind the other. -/
theorem Screen32.address (hg : Screen32 g) (hp : OnScreen g p) :
    pixelAddress g p = g.physicalBasePointer.toNat +
        (p.Y.toNat * g.xResolution.toNat + p.X.toNat) * 4 ∧
      p.Y.toNat * g.xResolution.toNat + p.X.toNat <
        g.xResolution.toNat * g.yResolution.toNat := by
  have hcolumn := hp.column
  have hfits := hg.fits
  have hrows : (p.Y.toNat + 1) * g.xResolution.toNat ≤
      g.yResolution.toNat * g.xResolution.toNat := Nat.mul_le_mul_right _ hp.row
  rw [Nat.add_mul, Nat.one_mul, Nat.mul_comm g.yResolution.toNat] at hrows
  have hlt : p.Y.toNat * g.xResolution.toNat + p.X.toNat <
      g.xResolution.toNat * g.yResolution.toNat := by omega
  refine ⟨?_, hlt⟩
  unfold pixelAddress
  rw [hg.bytesPerPixel, u32_eq (by omega)]

theorem point_ext (hX : p.X.toNat = q.X.toNat) (hY : p.Y.toNat = q.Y.toNat) : p = q := by
  calc p = ⟨p.X, p.Y⟩ := rfl
    _ = q := by rw [UInt16.toNat_inj.mp hX, UInt16.toNat_inj.mp hY]

/-- **Two pixels share no byte.** -/
theorem Screen32.apart (hg : Screen32 g) (hp : OnScreen g p) (hq : OnScreen g q) (hne : p ≠ q) :
    Apart (pixelBytes g p) (pixelBytes g q) := by
  have hindex : p.Y.toNat * g.xResolution.toNat + p.X.toNat ≠
      q.Y.toNat * g.xResolution.toNat + q.X.toNat := fun heq => by
    have hX : p.X.toNat = q.X.toNat := by
      have hmod := congrArg (· % g.xResolution.toNat) heq
      simp only [Nat.mul_add_mod_self_right, Nat.mod_eq_of_lt hp.column,
        Nat.mod_eq_of_lt hq.column] at hmod
      exact hmod
    have hY : p.Y.toNat = q.Y.toNat := by
      rw [hX, Nat.add_right_cancel_iff] at heq
      exact Nat.eq_of_mul_eq_mul_right (Nat.lt_of_le_of_lt (Nat.zero_le _) hp.column) heq
    exact hne (point_ext hX hY)
  unfold Apart pixelBytes
  rw [(hg.address hp).1, (hg.address hq).1]
  show _ + 4 ≤ _ ∨ _ + 4 ≤ _
  omega

theorem toNat_add_one16 {u : UInt16} (h : u.toNat + 1 < 65536) : (u + 1).toNat = u.toNat + 1 := by
  rw [UInt16.toNat_add]
  exact Nat.mod_eq_of_lt h

theorem toNat_sub_one16 {u : UInt16} (h : u.toNat ≠ 0) : (u - 1).toNat = u.toNat - 1 := by
  have hle : (1 : UInt16) ≤ u := UInt16.le_iff_toNat_le.mpr (Nat.one_le_iff_ne_zero.mpr h)
  rw [UInt16.toNat_sub_of_le u 1 hle]
  rfl

/-- Off the edge, the calls are made for the pixels of the screen that are beside the pixel. -/
theorem around_beside (hp : OnScreen g p) (hedge : ¬ OnEdge g p) (hq : q ∈ around p) :
    columns p q + rows p q = 1 ∧ OnScreen g q := by
  have hcolumn := hp.column
  have hrow := hp.row
  have hX := g.xResolution.toNat_lt
  have hY := g.yResolution.toNat_lt
  unfold OnEdge at hedge
  have hfour : (q.X.toNat = p.X.toNat + 1 ∧ q.Y.toNat = p.Y.toNat) ∨
      (q.X.toNat = p.X.toNat - 1 ∧ q.Y.toNat = p.Y.toNat) ∨
      (q.X.toNat = p.X.toNat ∧ q.Y.toNat = p.Y.toNat + 1) ∨
      (q.X.toNat = p.X.toNat ∧ q.Y.toNat = p.Y.toNat - 1) := by
    unfold around at hq
    simp only [List.mem_cons, List.not_mem_nil, or_false] at hq
    rcases hq with rfl | rfl | rfl | rfl
    · exact Or.inl ⟨toNat_add_one16 (by omega), rfl⟩
    · exact Or.inr (Or.inl ⟨toNat_sub_one16 (by omega), rfl⟩)
    · exact Or.inr (Or.inr (Or.inl ⟨rfl, toNat_add_one16 (by omega)⟩))
    · exact Or.inr (Or.inr (Or.inr ⟨rfl, toNat_sub_one16 (by omega)⟩))
  refine ⟨?_, ⟨by omega, by omega⟩⟩
  unfold columns rows
  omega

/-- All pixels beside a pixel are called for. -/
theorem beside_around (h : columns p q + rows p q = 1) : q ∈ around p := by
  have hX := q.X.toNat_lt
  have hY := q.Y.toNat_lt
  have hX' := p.X.toNat_lt
  have hY' := p.Y.toNat_lt
  have hfour : (q.X.toNat = p.X.toNat + 1 ∧ q.Y.toNat = p.Y.toNat) ∨
      (q.X.toNat + 1 = p.X.toNat ∧ q.Y.toNat = p.Y.toNat) ∨
      (q.X.toNat = p.X.toNat ∧ q.Y.toNat = p.Y.toNat + 1) ∨
      (q.X.toNat = p.X.toNat ∧ q.Y.toNat + 1 = p.Y.toNat) := by
    unfold columns rows at h
    omega
  unfold around
  simp only [List.mem_cons, List.not_mem_nil, or_false]
  rcases hfour with ⟨h1, h2⟩ | ⟨h1, h2⟩ | ⟨h1, h2⟩ | ⟨h1, h2⟩
  · exact Or.inl (point_ext (by rw [toNat_add_one16 (by omega), h1]) h2)
  · exact Or.inr (Or.inl (point_ext (by rw [toNat_sub_one16 (by omega)]; omega) h2))
  · exact Or.inr (Or.inr (Or.inl (point_ext h1 (by rw [toNat_add_one16 (by omega), h2]))))
  · exact Or.inr (Or.inr (Or.inr (point_ext h1 (by rw [toNat_sub_one16 (by omega)]; omega))))

end

/-! ## 3. What is painted -/

/-- **The pixels `P` have been painted**, and no other byte. -/
structure Painted (g : VbeModeInfo) (fill : UInt32) (m : Bytes) (P : Finset Point) (s : Bytes) :
    Prop where
  inside : ∀ p ∈ P, ∀ k < 4, s (pixelAddress g p + k) = wordByte fill.toNat k
  outside : ∀ q, (∀ p ∈ P, ¬ Inside q (pixelBytes g p)) → s q = m q

section

variable {g : VbeModeInfo} {fill boundary : UInt32} {m s s' : Bytes} {P : Finset Point}
  {p : Point}

theorem painted_empty : Painted g fill m ∅ m :=
  ⟨fun _ hp => absurd hp (Finset.notMem_empty _), fun _ _ => rfl⟩

/-- The paint says which bytes there are. -/
theorem Painted.unique (h : Painted g fill m P s) (h' : Painted g fill m P s') : s = s' := by
  funext q
  by_cases hin : ∃ p ∈ P, Inside q (pixelBytes g p)
  · obtain ⟨p, hp, hle, hlt⟩ := hin
    have hle : pixelAddress g p ≤ q := hle
    have hlt : q < pixelAddress g p + 4 := hlt
    have hq : pixelAddress g p + (q - pixelAddress g p) = q := by omega
    have hbyte := h.inside p hp (q - pixelAddress g p) (by omega)
    have hbyte' := h'.inside p hp (q - pixelAddress g p) (by omega)
    rw [hq] at hbyte hbyte'
    rw [hbyte, hbyte']
  · have hout : ∀ p ∈ P, ¬ Inside q (pixelBytes g p) := fun p hp hq => hin ⟨p, hp, hq⟩
    rw [h.outside q hout, h'.outside q hout]

/-- The bytes of a pixel that has not been painted. -/
theorem Painted.other (hg : Screen32 g) (h : Painted g fill m P s)
    (hP : ∀ q ∈ P, OnScreen g q) (hp : OnScreen g p) (hnot : p ∉ P) {k : Nat} (hk : k < 4) :
    s (pixelAddress g p + k) = m (pixelAddress g p + k) := by
  refine h.outside _ fun q hq => ?_
  have hne : p ≠ q := fun heq => hnot (heq ▸ hq)
  exact (hg.apart hp (hP q hq) hne).not_inside ⟨Nat.le_add_right _ _, Nat.add_lt_add_left hk _⟩

/-- **One more pixel.** -/
theorem Painted.insert (hg : Screen32 g) (h : Painted g fill m P s)
    (hP : ∀ q ∈ P, OnScreen g q) (hp : OnScreen g p) :
    Painted g fill m (insert p P) (drawPixel g fill s p) := by
  unfold drawPixel
  rw [hg.bytesPerPixel]
  refine ⟨fun q hq k hk => ?_, fun q hq => ?_⟩
  · rcases eq_or_ne q p with rfl | hne
    · exact blit_add hk
    · have hqP := (Finset.mem_insert.mp hq).resolve_left hne
      have hapart := hg.apart (hP q hqP) hp hne
      unfold Apart pixelBytes at hapart
      rw [blit_out (by simp only at hapart; omega)]
      exact h.inside q hqP k hk
  · have hnot : ¬ Inside q (pixelBytes g p) := hq p (Finset.mem_insert_self p P)
    unfold Inside pixelBytes at hnot
    rw [blit_out (by simp only at hnot; omega)]
    exact h.outside q fun r hr => hq r (Finset.mem_insert_of_mem hr)

/-- The test of a call, byte by byte. -/
theorem draws_iff (hg : Screen32 g) : draws g fill boundary m p = true ↔ ∃ k < 4,
    m (pixelAddress g p + k) ≠ wordByte fill.toNat k ∧
      m (pixelAddress g p + k) ≠ wordByte boundary.toNat k := by
  unfold draws
  rw [hg.bytesPerPixel, List.any_eq_true]
  simp only [List.mem_range, Bool.and_eq_true, bne_iff_ne]

/-- A painted pixel is not painted again. -/
theorem Painted.not_draws (hg : Screen32 g) (h : Painted g fill m P s) (hp : p ∈ P) :
    draws g fill boundary s p ≠ true := fun hdraws => by
  obtain ⟨k, hk, hne, _⟩ := (draws_iff hg).mp hdraws
  exact hne (h.inside p hp k hk)

/-- For the others the test has not changed. -/
theorem Painted.draws_other (hg : Screen32 g) (h : Painted g fill m P s)
    (hP : ∀ q ∈ P, OnScreen g q) (hp : OnScreen g p) (hnot : p ∉ P) :
    draws g fill boundary s p = true ↔ draws g fill boundary m p = true := by
  rw [draws_iff hg, draws_iff hg]
  refine exists_congr fun k => and_congr_right fun hk => ?_
  rw [h.other hg hP hp hnot hk]

end

/-! ## 4. The recursion -/

instance : Finite Point :=
  Finite.of_injective (fun p : Point => (p.X.toFin, p.Y.toFin)) fun p q h => by
    obtain ⟨hX, hY⟩ := Prod.mk.inj h
    exact point_ext (congrArg Fin.val hX) (congrArg Fin.val hY)

/-- The pixels connected with the seed, as a finite set. -/
noncomputable def component (g : VbeModeInfo) (want : Point → Prop) (seed : Point) : Finset Point :=
  (Set.toFinite {p | Connected g want seed p}).toFinset

section

variable {g : VbeModeInfo} {fill boundary : UInt32} {m : Bytes} {seed p : Point}
  {want want' : Point → Prop}

theorem mem_component : p ∈ component g want seed ↔ Connected g want seed p := by
  unfold component
  rw [Set.Finite.mem_toFinset]
  rfl

theorem Connected.onScreen (h : Connected g want seed p) : OnScreen g p := by
  cases h <;> assumption

theorem Connected.kind (h : Connected g want seed p) : want p := by
  cases h <;> assumption

theorem Connected.mono (hkind : ∀ p, want p → want' p) (h : Connected g want seed p) :
    Connected g want' seed p := by
  induction h with
  | seed hscreen hp => exact .seed hscreen (hkind _ hp)
  | step _ hbeside hscreen hp ih => exact .step ih hbeside hscreen (hkind _ hp)

/-- Only pixels of the kind lie on the way, so what holds of all of them may be added. -/
theorem Connected.strengthen (h : Connected g want seed p)
    (hkind : ∀ p, Connected g want seed p → want' p) : Connected g want' seed p := by
  induction h with
  | seed hscreen hp => exact .seed hscreen (hkind _ (.seed hscreen hp))
  | step hq hbeside hscreen hp ih =>
    exact .step ih hbeside hscreen (hkind _ (.step hq hbeside hscreen hp))

/-- The calls go from the seed to every pixel connected with it. -/
theorem Connected.reached (h : Connected g want seed p) : Connected g want seed seed ∧
    Relation.ReflTransGen (fun a b => b ∈ around a ∧ b ∈ component g want seed) seed p := by
  induction h with
  | seed hscreen hp => exact ⟨.seed hscreen hp, .refl⟩
  | step hq hbeside hscreen hp ih =>
    exact ⟨ih.1, ih.2.tail ⟨beside_around hbeside,
      mem_component.mpr (.step hq hbeside hscreen hp)⟩⟩

/-- **The calls stay with the pixels to be painted and those around them**, where none of them lies
on the edge. -/
theorem floods_component (hg : Screen32 g)
    (hedge : ∀ p, Connected g (fun p => draws g fill boundary m p = true) seed p → ¬ OnEdge g p) :
    Floods (draws g fill boundary) (fun p m => drawPixel g fill m p) around
      (component g (fun p => draws g fill boundary m p = true) seed)
      {p | OnScreen g p ∧ (draws g fill boundary m p = true →
        p ∈ component g (fun p => draws g fill boundary m p = true) seed)}
      (Painted g fill m) where
  wet_iff := by
    intro P s p hs hP ⟨hscreen, hin⟩
    have hPscreen : ∀ q ∈ P, OnScreen g q := fun q hq => (mem_component.mp (hP hq)).onScreen
    constructor
    · intro hdraws
      have hnot : p ∉ P := fun hp => hs.not_draws hg hp hdraws
      exact ⟨hin ((hs.draws_other hg hPscreen hscreen hnot).mp hdraws), hnot⟩
    · rintro ⟨hC, hnot⟩
      exact (hs.draws_other hg hPscreen hscreen hnot).mpr (mem_component.mp hC).kind
  paint := by
    intro P s p hs hP hC
    exact hs.insert hg (fun q hq => (mem_component.mp (hP hq)).onScreen)
      (mem_component.mp hC).onScreen
  around := by
    intro p q hC hq
    have hp := mem_component.mp hC
    obtain ⟨hbeside, hscreen⟩ := around_beside hp.onScreen (hedge p hp) hq
    exact ⟨hscreen, fun hdraws => mem_component.mpr (.step hp hbeside hscreen hdraws)⟩

/-- **What `boundary_fill` does**: it ends, and has painted the pixels that its test connects with
the seed. -/
theorem boundaryFill_paints (hg : Screen32 g) (hseed : OnScreen g seed)
    (hedge : ∀ p, Connected g (fun p => draws g fill boundary m p = true) seed p → ¬ OnEdge g p) :
    ∃ s depth, (∀ fuel, depth ≤ fuel → boundaryFill g fill boundary fuel seed m = some s) ∧
      Painted g fill m (component g (fun p => draws g fill boundary m p = true) seed) s := by
  have hfloods := floods_component hg hedge
  have hD : OnScreen g seed ∧ (draws g fill boundary m seed = true →
      seed ∈ component g (fun p => draws g fill boundary m p = true) seed) :=
    ⟨hseed, fun hdraws => mem_component.mpr (.seed hseed hdraws)⟩
  have hall : ∀ fuel, (component g (fun p => draws g fill boundary m p = true) seed).card < fuel →
      ∃ s, flood (draws g fill boundary) (fun p m => drawPixel g fill m p) around fuel seed m =
        some s ∧ Painted g fill m (component g (fun p => draws g fill boundary m p = true) seed) s :=
    fun fuel hfuel => flood_all hfloods painted_empty hD (fun p hp => by
      obtain ⟨hfirst, hpath⟩ := (mem_component.mp hp).reached
      exact ⟨mem_component.mpr hfirst, hpath⟩) hfuel
  obtain ⟨s, _, hs⟩ := hall _ (Nat.lt_succ_self _)
  refine ⟨s, (component g (fun p => draws g fill boundary m p = true) seed).card + 1,
    fun fuel hfuel => ?_, hs⟩
  obtain ⟨s', hrun, hs'⟩ := hall fuel hfuel
  rw [boundaryFill_eq, hrun, hs'.unique hs]

/-! ## 5. Mixtures -/

/-- **A mixture**: a third colour, every byte of which is that of one of the two. -/
structure Mixture (fill boundary : UInt32) (color : Nat) : Prop where
  not_fill : color ≠ fill.toNat
  not_boundary : color ≠ boundary.toNat
  bytes : ∀ k < 4, wordByte color k = wordByte fill.toNat k ∨
    wordByte color k = wordByte boundary.toNat k

/-- A pixel of neither colour. -/
def Other (g : VbeModeInfo) (fill boundary : UInt32) (m : Bytes) (p : Point) : Prop :=
  pixelColor g m p ≠ fill.toNat ∧ pixelColor g m p ≠ boundary.toNat

theorem wordByte_pixelColor {k : Nat} (hk : k < 4) :
    wordByte (pixelColor g m p) k = m (pixelAddress g p + k) := by
  have h0 := (m (pixelAddress g p)).toNat_lt
  have h1 := (m (pixelAddress g p + 1)).toNat_lt
  have h2 := (m (pixelAddress g p + 2)).toNat_lt
  have h3 := (m (pixelAddress g p + 3)).toNat_lt
  refine UInt8.toNat_inj.mp ?_
  rw [wordByte_toNat]
  unfold pixelColor le32
  have hk : k = 0 ∨ k = 1 ∨ k = 2 ∨ k = 3 := by omega
  rcases hk with rfl | rfl | rfl | rfl
  · rw [Nat.pow_zero, Nat.div_one]
    show _ % 256 = (m (pixelAddress g p)).toNat
    omega
  all_goals omega

/-- **The test of the source**: a pixel of neither colour that is not a mixture. -/
theorem draws_iff_color (hg : Screen32 g) : draws g fill boundary m p = true ↔
    Other g fill boundary m p ∧ ¬ Mixture fill boundary (pixelColor g m p) := by
  rw [draws_iff hg]
  constructor
  · rintro ⟨k, hk, hfill, hboundary⟩
    rw [← @wordByte_pixelColor g m p k hk] at hfill hboundary
    exact ⟨⟨fun heq => hfill (by rw [heq]), fun heq => hboundary (by rw [heq])⟩,
      fun hmix => (hmix.bytes k hk).elim hfill hboundary⟩
  · rintro ⟨⟨hfill, hboundary⟩, hmix⟩
    by_contra hnone
    refine hmix ⟨hfill, hboundary, fun k hk => ?_⟩
    by_contra hneither
    rw [not_or, wordByte_pixelColor hk] at hneither
    exact hnone ⟨k, hk, hneither⟩

/-- Painted pixels have the fill colour. -/
theorem Painted.pixelColor {s : Bytes} {P : Finset Point} (h : Painted g fill m P s)
    (hp : p ∈ P) : pixelColor g s p = fill.toNat := by
  have hbytes : le32 s (pixelAddress g p) = le32 (wordByte fill.toNat) 0 :=
    le32_congr fun k hk => by rw [h.inside p hp k hk, Nat.zero_add]
  unfold Graphics.pixelColor
  rw [hbytes, le32_wordByte, u32_eq fill.toNat_lt]

/-- **The fill is exact**: it ends, the pixels connected with the seed through pixels of neither
colour have the fill colour, and no other byte has changed. -/
def FillsExactly (g : VbeModeInfo) (fill boundary : UInt32) (seed : Point) (m : Bytes) : Prop :=
  ∃ s depth, (∀ fuel, depth ≤ fuel → boundaryFill g fill boundary fuel seed m = some s) ∧
    (∀ p, Connected g (Other g fill boundary m) seed p → pixelColor g s p = fill.toNat) ∧
    ∀ q, (∀ p, Connected g (Other g fill boundary m) seed p → ¬ Inside q (pixelBytes g p)) →
      s q = m q

/-- A mixture in the way stays. -/
theorem not_fillsExactly (hg : Screen32 g) (hseed : OnScreen g seed)
    (hedge : ∀ p, Connected g (Other g fill boundary m) seed p → ¬ OnEdge g p)
    (hp : Connected g (Other g fill boundary m) seed p)
    (hmix : Mixture fill boundary (pixelColor g m p)) : ¬ FillsExactly g fill boundary seed m := by
  rintro ⟨s', depth', hrun', hcolor, _⟩
  obtain ⟨s, depth, hrun, hs⟩ := boundaryFill_paints hg hseed fun p hp =>
    hedge p (hp.mono fun q hq => ((draws_iff_color hg).mp hq).1)
  have heq : s = s' := Option.some.inj
    ((hrun (max depth depth') (le_max_left _ _)).symm.trans (hrun' _ (le_max_right _ _)))
  subst heq
  have hnot : p ∉ component g (fun p => draws g fill boundary m p = true) seed := fun hin =>
    ((draws_iff_color hg).mp (mem_component.mp hin).kind).2 hmix
  have hsame : pixelColor g s p = pixelColor g m p := le32_congr fun k hk =>
    hs.other hg (fun q hq => (mem_component.mp hq).onScreen) hp.onScreen hnot hk
  exact hmix.not_fill (hsame.symm.trans (hcolor p hp))

/-- **Flood fill paints exactly the enclosed region** where no pixel of it is a mixture, and
only there. -/
theorem boundaryFill_exact_iff (g : VbeModeInfo) (fill boundary : UInt32) (seed : Point) (m : Bytes)
    (hg : Screen32 g) (hseed : OnScreen g seed)
    (hedge : ∀ p, Connected g (Other g fill boundary m) seed p → ¬ OnEdge g p) :
    FillsExactly g fill boundary seed m ↔
      ∀ p, Connected g (Other g fill boundary m) seed p →
        ¬ Mixture fill boundary (pixelColor g m p) := by
  constructor
  · exact fun hfills p hp hmix => not_fillsExactly hg hseed hedge hp hmix hfills
  · intro hmix
    have hsame : ∀ p, Connected g (fun p => draws g fill boundary m p = true) seed p ↔
        Connected g (Other g fill boundary m) seed p := fun p =>
      ⟨fun hp => hp.mono fun q hq => ((draws_iff_color hg).mp hq).1, fun hp =>
        hp.strengthen fun q hq => (draws_iff_color hg).mpr ⟨hq.kind, hmix q hq⟩⟩
    obtain ⟨s, depth, hrun, hs⟩ := boundaryFill_paints hg hseed fun p hp =>
      hedge p ((hsame p).mp hp)
    refine ⟨s, depth, hrun, fun p hp => hs.pixelColor (mem_component.mpr ((hsame p).mpr hp)),
      fun q hq => hs.outside q fun p hp => hq p ((hsame p).mp (mem_component.mp hp))⟩

end

/-- **The boundary of the callers**, one below the fill colour, leaves no room for mixtures when the
lowest byte of the fill colour is not 0. -/
theorem not_mixture_below {fill : UInt32} (h : fill.toNat % 256 ≠ 0) {color : Nat}
    (hcolor : color < 4294967296) : ¬ Mixture fill (fill - 1) color := by
  have hlt := fill.toNat_lt
  have hbelow : (fill - 1).toNat = fill.toNat - 1 := by
    have hle : (1 : UInt32) ≤ fill := UInt32.le_iff_toNat_le.mpr (by show 1 ≤ fill.toNat; omega)
    rw [UInt32.toNat_sub_of_le fill 1 hle]
    rfl
  rintro ⟨hfill, hboundary, hbytes⟩
  rw [hbelow] at hboundary
  have hbyte : ∀ k < 4, color / 256 ^ k % 256 = fill.toNat / 256 ^ k % 256 ∨
      color / 256 ^ k % 256 = (fill.toNat - 1) / 256 ^ k % 256 := fun k hk => by
    have hk := hbytes k hk
    rw [hbelow] at hk
    rw [← wordByte_toNat, ← wordByte_toNat, ← wordByte_toNat]
    exact hk.imp (congrArg UInt8.toNat) (congrArg UInt8.toNat)
  -- above the lowest byte the two colours agree
  have hagree : (fill.toNat - 1) / 256 = fill.toNat / 256 := by omega
  have hhigh : ∀ k, k < 3 → color / 256 / 256 ^ k % 256 = fill.toNat / 256 / 256 ^ k % 256 := by
    intro k hk
    have hbyte := hbyte (k + 1) (by omega)
    rw [Nat.pow_succ', ← Nat.div_div_eq_div_mul, ← Nat.div_div_eq_div_mul,
      ← Nat.div_div_eq_div_mul, hagree, or_self] at hbyte
    exact hbyte
  have hupper : color / 256 = fill.toNat / 256 := by
    have h0 := hhigh 0 (by decide)
    have h1 := hhigh 1 (by decide)
    have h2 := hhigh 2 (by decide)
    rw [Nat.pow_zero, Nat.div_one, Nat.div_one] at h0
    rw [Nat.pow_one] at h1
    omega
  have hlowest := hbyte 0 (by decide)
  rw [Nat.pow_zero, Nat.div_one, Nat.div_one, Nat.div_one] at hlowest
  rcases hlowest with hlowest | hlowest <;> omega

/-! ## 6. One pixel inside of a wall -/

/-- A screen of nine pixels. -/
def mode3 : VbeModeInfo := ⟨3, 3, 32, 0xFD000000, 12, 8, 16, 8, 8, 8, 0⟩

/-- The pixel in the middle has one colour, the others another. -/
def spot (inner wall : UInt32) : Bytes := fun q =>
  wordByte (if q / 4 = 1061158916 then inner.toNat else wall.toNat) (q % 4)

theorem screen32_mode3 : Screen32 mode3 := ⟨rfl, by decide⟩

section

variable {inner wall fill boundary : UInt32} {p : Point}

theorem spot_color (hp : OnScreen mode3 p) :
    pixelColor mode3 (spot inner wall) p = if p = ⟨1, 1⟩ then inner.toNat else wall.toNat := by
  have hX : p.X.toNat < 3 := hp.column
  have hY : p.Y.toNat < 3 := hp.row
  have haddress : pixelAddress mode3 p = 4244635648 + (p.Y.toNat * 3 + p.X.toNat) * 4 :=
    (screen32_mode3.address hp).1
  have hmiddle : p = ⟨1, 1⟩ ↔ pixelAddress mode3 p / 4 = 1061158916 := by
    rw [haddress]
    constructor
    · rintro rfl
      rfl
    · intro h
      exact point_ext (by show p.X.toNat = 1; omega) (by show p.Y.toNat = 1; omega)
  have hbytes : le32 (spot inner wall) (pixelAddress mode3 p) =
      le32 (wordByte (if p = ⟨1, 1⟩ then inner.toNat else wall.toNat)) 0 := by
    refine le32_congr fun k hk => ?_
    have hdiv : (pixelAddress mode3 p + k) / 4 = pixelAddress mode3 p / 4 := by omega
    have hmod : (pixelAddress mode3 p + k) % 4 = 0 + k := by omega
    unfold spot
    simp only [hdiv, hmod, hmiddle]
  unfold pixelColor
  rw [hbytes, le32_wordByte]
  split
  · exact u32_eq inner.toNat_lt
  · exact u32_eq wall.toNat_lt

/-- Inside of a wall of the boundary's colour there is the middle alone. -/
theorem spot_connected {seed : Point}
    (hp : Connected mode3 (Other mode3 fill boundary (spot inner boundary)) seed p) :
    p = ⟨1, 1⟩ := by
  by_contra hne
  have hother := hp.kind.2
  rw [spot_color hp.onScreen, if_neg hne] at hother
  exact hother rfl

theorem middle_onScreen : OnScreen mode3 ⟨1, 1⟩ := ⟨by decide, by decide⟩

theorem middle_not_edge : ¬ OnEdge mode3 ⟨1, 1⟩ := by
  unfold OnEdge
  decide

end

/-- **Red on white**, as the callers fill it: the white pixel inside of the wall `RED - 1` stays
white. -/
theorem boundaryFill_leaves_white : ¬ ∀ (g : VbeModeInfo) (fill boundary : UInt32) (seed : Point)
    (m : Bytes), fill ≠ boundary → Screen32 g → OnScreen g seed →
      (∀ p, Connected g (Other g fill boundary m) seed p → ¬ OnEdge g p) →
      FillsExactly g fill boundary seed m := by
  intro h
  have hcolor : pixelColor mode3 (spot 0x00FFFFFF 0x00FEFFFF) ⟨1, 1⟩ = 16777215 := by
    rw [spot_color middle_onScreen]
    rfl
  have hseed : Connected mode3 (Other mode3 0x00FF0000 0x00FEFFFF (spot 0x00FFFFFF 0x00FEFFFF))
      ⟨1, 1⟩ ⟨1, 1⟩ := by
    refine .seed middle_onScreen ?_
    unfold Other
    rw [hcolor]
    decide
  have hedge : ∀ p, Connected mode3 (Other mode3 0x00FF0000 0x00FEFFFF
      (spot 0x00FFFFFF 0x00FEFFFF)) ⟨1, 1⟩ p → ¬ OnEdge mode3 p := fun p hp => by
    rw [spot_connected hp]
    exact middle_not_edge
  refine not_fillsExactly screen32_mode3 middle_onScreen hedge hseed ?_
    (h mode3 0x00FF0000 0x00FEFFFF ⟨1, 1⟩ _ (by decide) screen32_mode3 middle_onScreen hedge)
  rw [hcolor]
  exact ⟨by decide, by decide, by decide⟩

/-- White on black is filled. -/
theorem boundaryFill_white_on_black :
    FillsExactly mode3 0x00FFFFFF 0x00FFFFFE ⟨1, 1⟩ (spot 0 0x00FFFFFE) := by
  refine (boundaryFill_exact_iff mode3 0x00FFFFFF 0x00FFFFFE ⟨1, 1⟩ (spot 0 0x00FFFFFE)
    screen32_mode3 middle_onScreen fun p hp => ?_).mpr fun p hp => ?_
  · rw [spot_connected hp]
    exact middle_not_edge
  · exact not_mixture_below (by decide) (le32_lt _ _)

end AmateurOs.Graphics
