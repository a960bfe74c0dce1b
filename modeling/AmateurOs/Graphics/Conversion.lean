/-
# `convert_color` twice

The shell converts the colours that it puts into an escape sequence, and `terminal_write` converts
what it reads from there.  `convert_color` reads its argument as three fields of 8 bits and writes
the fields of the mode, so that a second conversion is harmless only in the modes whose fields end
where the 8-bit fields do: `convertColor_idempotent_iff`.

Bits carry the argument: bit `i` of a converted colour is a bit of the colour that the field of `i`
names (`testBit_convertColor`).
-/
import AmateurOs.Terminal.Write
import Mathlib.Data.List.Pairwise

namespace AmateurOs.Graphics

open AmateurOs.Lib AmateurOs.Terminal

/-! ## 1. Fields -/

/-- A field of the mode, and the place of the 8 bits that are converted into it. -/
structure Field where
  size : Nat
  position : Nat
  shift : Nat

/-- The bits of the field. -/
def Field.Holds (f : Field) (i : Nat) : Prop := f.position ≤ i ∧ i < f.position + f.size

instance (f : Field) (i : Nat) : Decidable (f.Holds i) := instDecidableAnd

/-- The bit of the colour that is converted into bit `i`. -/
def Field.source (f : Field) (i : Nat) : Nat := i - f.position + (8 - f.size) + f.shift

/-- Red, green and blue. -/
def fields (g : VbeModeInfo) : List Field :=
  [⟨g.linearRedMaskSize.toNat, g.linearRedFieldPosition.toNat, 16⟩,
    ⟨g.linearGreenMaskSize.toNat, g.linearGreenFieldPosition.toNat, 8⟩,
    ⟨g.linearBlueMaskSize.toNat, g.linearBlueFieldPosition.toNat, 0⟩]

/-- Two fields share no bit. -/
def Field.Disjoint (f f' : Field) : Prop :=
  f.position + f.size ≤ f'.position ∨ f'.position + f'.size ≤ f.position

instance (f f' : Field) : Decidable (f.Disjoint f') := instDecidableOr

instance : Std.Symm Field.Disjoint := ⟨fun _ _ => Or.symm⟩

/-- **A mode of 9 to 32 bits per pixel**: its fields have 1 to 8 bits each, lie in a pixel and
share no bit. -/
structure DirectColor (g : VbeModeInfo) : Prop where
  bits_ge : 9 ≤ g.bitsPerPixel.toNat
  bits_le : g.bitsPerPixel.toNat ≤ 32
  sizes : ∀ f ∈ fields g, 1 ≤ f.size ∧ f.size ≤ 8
  inside : ∀ f ∈ fields g, f.position + f.size ≤ g.bitsPerPixel.toNat
  disjoint : (fields g).Pairwise Field.Disjoint

/-! ## 2. The bits of a converted colour -/

section

variable {g : VbeModeInfo}

theorem testBit_u8 (n i : Nat) : (u8 n).testBit i = (decide (i < 8) && n.testBit i) :=
  Nat.testBit_mod_two_pow n 8 i

/-- One portion of the colour. -/
theorem testBit_colorPart {f : Field} (hsize : 1 ≤ f.size ∧ f.size ≤ 8) (color i : Nat) :
    (colorPart (u8 (color >>> f.shift)) f.size f.position).testBit i =
      (decide (f.Holds i) && color.testBit (f.source i)) := by
  have hshift : u8 (8 + 256 - f.size) = 8 - f.size := by
    unfold u8
    omega
  have hmask : u8 ((1 <<< f.size) - 1) = 2 ^ f.size - 1 := by
    have hpow : 2 ^ f.size ≤ 2 ^ 8 := Nat.pow_le_pow_right (by decide) hsize.2
    unfold u8
    rw [Nat.one_shiftLeft]
    omega
  have hplace : f.shift + (8 - f.size + (i - f.position)) = f.source i := by
    unfold Field.source
    omega
  unfold colorPart
  rw [hshift, hmask, Nat.testBit_shiftLeft, Nat.testBit_and, Nat.testBit_shiftRight, testBit_u8,
    Nat.testBit_shiftRight, Nat.testBit_two_pow_sub_one, hplace]
  by_cases hbit : f.Holds i
  · obtain ⟨hle, hlt⟩ := hbit
    rw [decide_eq_true (show i ≥ f.position from hle),
      decide_eq_true (show i - f.position < f.size by omega),
      decide_eq_true (show 8 - f.size + (i - f.position) < 8 by omega),
      decide_eq_true (show f.Holds i from ⟨hle, hlt⟩), Bool.true_and, Bool.true_and, Bool.and_true]
  · rw [decide_eq_false hbit, Bool.false_and]
    by_cases hle : i ≥ f.position
    · have hout : ¬ i - f.position < f.size := fun hlt => hbit ⟨hle, by omega⟩
      rw [decide_eq_false hout, Bool.and_false, Bool.and_false]
    · rw [decide_eq_false hle, Bool.false_and]

/-- **Bit `i` of a converted colour.** -/
theorem testBit_convertColor (hg : DirectColor g) (color i : Nat) :
    (convertColor g color).testBit i = true ↔
      ∃ f ∈ fields g, f.Holds i ∧ color.testBit (f.source i) = true := by
  have hbits : ¬ g.bitsPerPixel = 8 := fun h => by
    have hge := hg.bits_ge
    rw [h] at hge
    exact absurd hge (by decide)
  have hparts : convertColor g color = u32
      (colorPart (u8 (color >>> 16)) g.linearRedMaskSize.toNat g.linearRedFieldPosition.toNat |||
        colorPart (u8 (color >>> 8)) g.linearGreenMaskSize.toNat g.linearGreenFieldPosition.toNat |||
        colorPart (u8 (color >>> 0)) g.linearBlueMaskSize.toNat
          g.linearBlueFieldPosition.toNat) := if_neg hbits
  have hred := hg.sizes ⟨_, _, 16⟩ (List.mem_cons_self)
  have hgreen := hg.sizes ⟨_, _, 8⟩ (List.mem_cons_of_mem _ List.mem_cons_self)
  have hblue := hg.sizes ⟨_, _, 0⟩ (List.mem_cons_of_mem _ (List.mem_cons_of_mem _
    List.mem_cons_self))
  have hlow : ∀ f ∈ fields g, f.Holds i → i < 32 := fun f hf hbit =>
    Nat.lt_of_lt_of_le hbit.2 (Nat.le_trans (hg.inside f hf) hg.bits_le)
  have hany : (∃ f ∈ fields g, f.Holds i ∧ color.testBit (f.source i) = true) ↔
      ((fields g).any fun f => decide (f.Holds i) && color.testBit (f.source i)) = true := by
    rw [List.any_eq_true]
    simp only [Bool.and_eq_true, decide_eq_true_eq]
  have hor : (fields g).any (fun f => decide (f.Holds i) && color.testBit (f.source i)) =
      (colorPart (u8 (color >>> 16)) g.linearRedMaskSize.toNat g.linearRedFieldPosition.toNat |||
        colorPart (u8 (color >>> 8)) g.linearGreenMaskSize.toNat g.linearGreenFieldPosition.toNat |||
        colorPart (u8 (color >>> 0)) g.linearBlueMaskSize.toNat
          g.linearBlueFieldPosition.toNat).testBit i := by
    rw [Nat.testBit_or, Nat.testBit_or, testBit_colorPart hred, testBit_colorPart hgreen,
      testBit_colorPart hblue]
    unfold fields
    simp only [List.any_cons, List.any_nil, Bool.or_false, Bool.or_assoc]
  rw [hany, hparts]
  unfold u32
  rw [show 4294967296 = 2 ^ 32 from rfl, Nat.testBit_mod_two_pow, ← hor, Bool.and_eq_true,
    decide_eq_true_eq, and_iff_right_iff_imp]
  intro h
  obtain ⟨f, hf, hbit, _⟩ := hany.mpr h
  exact hlow f hf hbit

/-- Fields that share a bit are the same. -/
theorem DirectColor.same (hg : DirectColor g) {f f' : Field} {i : Nat} (hf : f ∈ fields g)
    (hf' : f' ∈ fields g) (hbit : f.Holds i) (hbit' : f'.Holds i) : f = f' := by
  by_contra hne
  have hapart := hg.disjoint.forall hf hf' hne
  unfold Field.Disjoint at hapart
  unfold Field.Holds at hbit hbit'
  omega

/-- The bits that are converted into a field are its own 8 bits. -/
theorem DirectColor.source_mem (hg : DirectColor g) {f : Field} {i : Nat} (hf : f ∈ fields g)
    (hbit : f.Holds i) : f.shift ≤ f.source i ∧ f.source i < f.shift + 8 := by
  have hsize := hg.sizes f hf
  obtain ⟨hle, hlt⟩ := hbit
  unfold Field.source
  omega

/-- The 8-bit fields share no bit. -/
theorem shift_inj {f f' : Field} (hf : f ∈ fields g) (hf' : f' ∈ fields g)
    (hnear : f.shift < f'.shift + 8 ∧ f'.shift < f.shift + 8) : f = f' := by
  unfold fields at hf hf'
  simp only [List.mem_cons, List.not_mem_nil, or_false] at hf hf'
  rcases hf with rfl | rfl | rfl <;> rcases hf' with rfl | rfl | rfl <;>
    simp only at hnear ⊢ <;> omega

/-! ## 3. Converting twice -/

/-- A field that ends where its 8 bits do. -/
def Field.Aligned (f : Field) : Prop := f.position + f.size = f.shift + 8

theorem Field.Aligned.source_eq {f : Field} (h : f.Aligned) (hsize : f.size ≤ 8) {i : Nat}
    (hbit : f.Holds i) : f.source i = i := by
  obtain ⟨hle, hlt⟩ := hbit
  unfold Field.Aligned at h
  unfold Field.source
  omega

/-- Aligned fields are read where they were written. -/
theorem convertColor_aligned (hg : DirectColor g) (hall : ∀ f ∈ fields g, f.Aligned)
    (color : Nat) : convertColor g (convertColor g color) = convertColor g color := by
  refine Nat.eq_of_testBit_eq fun i => Bool.eq_iff_iff.mpr ?_
  rw [testBit_convertColor hg]
  constructor
  · rintro ⟨f, hf, hbit, hset⟩
    rwa [(hall f hf).source_eq (hg.sizes f hf).2 hbit] at hset
  · intro hset
    obtain ⟨f, hf, hbit, _⟩ := (testBit_convertColor hg color i).mp hset
    exact ⟨f, hf, hbit, by rwa [(hall f hf).source_eq (hg.sizes f hf).2 hbit]⟩

/-- **The top bit of a field that is not aligned** comes from a place where the converted colour
does not have it. -/
theorem aligned_of_idempotent (hg : DirectColor g) {f : Field} (hf : f ∈ fields g)
    (h : convertColor g (convertColor g (2 ^ (f.shift + 7))) = convertColor g (2 ^ (f.shift + 7))) :
    f.Aligned := by
  have hsize := hg.sizes f hf
  have htop : f.Holds (f.position + f.size - 1) := ⟨by omega, by omega⟩
  have hsource : f.source (f.position + f.size - 1) = f.shift + 7 := by
    unfold Field.source
    omega
  -- the bit is set after one conversion, so after two
  have hset : (convertColor g (2 ^ (f.shift + 7))).testBit (f.position + f.size - 1) = true :=
    (testBit_convertColor hg _ _).mpr ⟨f, hf, htop, by rw [hsource, Nat.testBit_two_pow_self]⟩
  rw [← h] at hset
  obtain ⟨f', hf', hbit, hset⟩ := (testBit_convertColor hg _ _).mp hset
  obtain rfl := hg.same hf hf' htop hbit
  rw [hsource] at hset
  -- and there it comes from bit 7 of the same 8 bits
  obtain ⟨f', hf', hbit', hset⟩ := (testBit_convertColor hg _ _).mp hset
  have hplace : f'.source (f.shift + 7) = f.shift + 7 := by
    by_contra hne
    rw [Nat.testBit_two_pow_of_ne (Ne.symm hne)] at hset
    cases hset
  have hnear := hg.source_mem hf' hbit'
  rw [hplace] at hnear
  obtain rfl := shift_inj hf hf' (by omega)
  obtain ⟨hle, hlt⟩ := hbit'
  unfold Field.source at hplace
  unfold Field.Aligned
  omega

/-- **Colour conversion is idempotent** in the modes whose three fields end where the 8-bit fields
do, and in no other. -/
theorem convertColor_idempotent_iff (g : VbeModeInfo) (hg : DirectColor g) :
    (∀ color : UInt32, convertColor g (convertColor g color.toNat) = convertColor g color.toNat) ↔
      g.linearRedFieldPosition.toNat + g.linearRedMaskSize.toNat = 24 ∧
        g.linearGreenFieldPosition.toNat + g.linearGreenMaskSize.toNat = 16 ∧
        g.linearBlueFieldPosition.toNat + g.linearBlueMaskSize.toNat = 8 := by
  have hfields : (∀ f ∈ fields g, f.Aligned) ↔
      g.linearRedFieldPosition.toNat + g.linearRedMaskSize.toNat = 24 ∧
        g.linearGreenFieldPosition.toNat + g.linearGreenMaskSize.toNat = 16 ∧
        g.linearBlueFieldPosition.toNat + g.linearBlueMaskSize.toNat = 8 := by
    unfold fields
    simp only [List.mem_cons, List.not_mem_nil, or_false, forall_eq_or_imp, forall_eq]
    exact Iff.rfl
  rw [← hfields]
  constructor
  · intro h f hf
    have hshift : f.shift + 7 < 32 := by
      unfold fields at hf
      simp only [List.mem_cons, List.not_mem_nil, or_false] at hf
      rcases hf with rfl | rfl | rfl <;> simp
    have hsmall : 2 ^ (f.shift + 7) < 2 ^ 32 := Nat.pow_lt_pow_right (by decide) hshift
    have hcolor := h (UInt32.ofNat (2 ^ (f.shift + 7)))
    rw [UInt32.toNat_ofNat', Nat.mod_eq_of_lt hsmall] at hcolor
    exact aligned_of_idempotent hg hf hcolor
  · exact fun hall color => convertColor_aligned hg hall color.toNat

/-- The mode with 16 bits per pixel, 5 red, 6 green and 5 blue. -/
def mode565 : VbeModeInfo := ⟨1024, 768, 16, 0xFD000000, 2048, 5, 11, 6, 5, 5, 0⟩

/-- The mode with 32 bits per pixel has aligned fields. -/
theorem directColor_mode1024 : DirectColor mode1024 :=
  ⟨by decide, by decide, by decide, by decide, by decide⟩

theorem convertColor_mode1024 :
    convertColor mode1024 (convertColor mode1024 0x00FFAA00) = convertColor mode1024 0x00FFAA00 :=
  (convertColor_idempotent_iff mode1024 directColor_mode1024).mpr (by decide) 0x00FFAA00

/-- **Red of 16 bits is green** after a second conversion. -/
theorem convertColor_red_green : ¬ ∀ (g : VbeModeInfo) (color : UInt32), DirectColor g →
    convertColor g (convertColor g color.toNat) = convertColor g color.toNat := fun h =>
  absurd (h mode565 0x00FF0000 ⟨by decide, by decide, by decide, by decide, by decide⟩) (by decide)

end

end AmateurOs.Graphics
