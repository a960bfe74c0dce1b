/-
# Colour escapes

`printf` writes a colour as `0x` and its hexadecimal digits; `terminal_write` reads it back up to
an end mark.  For the foreground the mark is the `B` of `BG`, which is also the digit eleven.

The reader is followed digit by digit (`scan_digits`), and what it makes of a row of digits is
their value (`value_digits`).  A foreground without the digit eleven is read back whole; one with
it is cut in front of the first such digit, and the value of what is left is smaller.
-/
import Mathlib.Data.Nat.Digits.Lemmas
import AmateurOs.Lib.Text
import AmateurOs.Terminal.Write

namespace AmateurOs.Terminal

open AmateurOs.Lib AmateurOs.Fs

/-! ## 1. The text of a colour -/

/-- The character of a hexadecimal digit. -/
def hexChar (d : Nat) : UInt8 := digits.getD d 0

/-- The digits that `printf_hex` writes with precision 0, lowest first: padded to an even
number. -/
def paddedDigits (n : Nat) : List Nat :=
  let ds := if n = 0 then [0] else Nat.digits 16 n
  if ds.length % 2 = 0 then ds else ds ++ [0]

/-- The format of a colour escape. -/
def colorFormat : List UInt8 := 0x1b :: text "FG%#xBG%#x;"

/-- The digits of the loop of `printf_hex`. -/
theorem hexLoop_eq : ∀ (fuel n : Nat), n < 16 ^ (fuel + 1) →
    hexLoop (fuel + 1) n = (if n = 0 then [0] else Nat.digits 16 n).map hexChar := by
  intro fuel
  induction fuel with
  | zero =>
    intro n hn
    have hlt : n < 16 := hn
    have hdiv : n / 16 = 0 := Nat.div_eq_of_lt hlt
    unfold hexLoop
    rw [hdiv, if_neg (Nat.lt_irrefl 0), Nat.mod_eq_of_lt hlt]
    by_cases h0 : n = 0
    · subst h0
      rfl
    · rw [if_neg h0, Nat.digits_of_lt 16 n h0 hlt]
      rfl
  | succ fuel ih =>
    intro n hn
    have hdiv : n / 16 < 16 ^ (fuel + 1) := by
      rw [Nat.div_lt_iff_lt_mul (by decide), ← Nat.pow_succ]
      exact hn
    unfold hexLoop
    by_cases h0 : n = 0
    · subst h0
      rfl
    · rw [if_neg h0, Nat.digits_def' (by decide) (Nat.pos_of_ne_zero h0), List.map_cons]
      by_cases hq : n / 16 > 0
      · rw [if_pos hq, ih _ hdiv, if_neg (Nat.ne_of_gt hq)]
        rfl
      · rw [if_neg hq, Nat.eq_zero_of_not_pos hq]
        simp [hexChar]

/-- **What `printf_hex` writes.** -/
theorem printfHex_eq (n : UInt32) :
    printfHex n.toNat 0 = ((paddedDigits n.toNat).map hexChar).reverse := by
  have hn : n.toNat < 16 ^ (31 + 1) := Nat.lt_of_lt_of_le n.toNat_lt (by decide)
  have hzero : hexChar 0 = char '0' := rfl
  have hpad : ∀ ds : List Nat, ds ≠ [] → (n.toNat < 16 → ds.length = 1) →
      (if decide (n.toNat < 0x10) || (ds.length - 1) % 2 == 0 then [char '0'] else []) ++
          (ds.map hexChar).reverse =
        ((if ds.length % 2 = 0 then ds else ds ++ [0]).map hexChar).reverse := by
    intro ds hne hone
    have hpos : 0 < ds.length := List.length_pos_of_ne_nil hne
    by_cases heven : ds.length % 2 = 0
    · have hbig : ¬ n.toNat < 16 := fun h => by
        have := hone h
        omega
      have hodd : (ds.length - 1) % 2 = 1 := by omega
      simp [heven, hbig, hodd]
    · have hodd : (ds.length - 1) % 2 = 0 := by omega
      simp [heven, hodd, hzero]
  unfold printfHex paddedDigits
  simp only [hexLoop_eq 31 _ hn]
  by_cases h0 : n.toNat = 0
  · simp only [h0]
    rfl
  · simp only [if_neg h0, List.length_map]
    have hrep : (0 - ((Nat.digits 16 n.toNat).length : Int)).toNat = 0 := by omega
    rw [hrep, List.replicate_zero, List.append_nil, List.length_map]
    exact hpad _ (Nat.digits_ne_nil_iff_ne_zero.2 h0) fun h => by
      rw [Nat.digits_of_lt 16 _ h0 h]
      rfl

/-- The conversion `%#x` of the colour escape. -/
theorem convert_hex (e : Stack) (arg : Nat) :
    convert e ⟨true, false, 0, 0⟩ arg 120 =
      (text "0x" ++ printfHex (e.args arg).toNat 0, 1) := by
  have hx : convert e ⟨true, false, 0, 0⟩ arg 120 =
      (text "0x" ++ printfHex (e.args arg).toNat 0 ++ [], 1) := rfl
  rw [hx, List.append_nil]

/-- **What `printf` makes of a colour escape.** -/
theorem printf_colorFormat (e : Stack) :
    printf e colorFormat = some (0x1b :: (text "FG0x" ++ printfHex (e.args 0).toNat 0 ++
      (text "BG0x" ++ printfHex (e.args 1).toNat 0 ++ text ";"))) := by
  have hformat : colorFormat = [27, 70, 71, 37, 35, 120, 66, 71, 37, 35, 120, 59] := by decide
  have hpercent : char '%' = 37 := by decide
  have hspec : ∀ rest, readSpec (35 :: 120 :: rest) = (⟨true, false, 0, 0⟩, 120 :: rest) :=
    fun _ => rfl
  have htext : text "FG0x" = [70, 71] ++ text "0x" ∧ text "BG0x" = [66, 71] ++ text "0x" ∧
      text ";" = [59] := by decide
  simp [printf, printfLoop, hformat, hpercent, hspec, convert_hex, htext]

/-! ## 2. The digits of a number -/

theorem paddedDigits_lt {n d : Nat} (h : d ∈ paddedDigits n) : d < 16 := by
  have hbase : ∀ d ∈ (if n = 0 then [0] else Nat.digits 16 n), d < 16 := by
    intro d hd
    by_cases h0 : n = 0
    · rw [if_pos h0, List.mem_singleton] at hd
      omega
    · rw [if_neg h0] at hd
      exact Nat.digits_lt_base (by decide) hd
  unfold paddedDigits at h
  by_cases heven : (if n = 0 then [0] else Nat.digits 16 n).length % 2 = 0
  · simp only [heven, if_true] at h
    exact hbase d h
  · simp only [heven, if_false, List.mem_append, List.mem_singleton] at h
    rcases h with h | rfl
    · exact hbase d h
    · decide

/-- The padding does not change the number. -/
theorem ofDigits_paddedDigits (n : Nat) : Nat.ofDigits 16 (paddedDigits n) = n := by
  have hbase : Nat.ofDigits 16 (if n = 0 then [0] else Nat.digits 16 n) = n := by
    by_cases h0 : n = 0
    · rw [if_pos h0, h0]
      rfl
    · rw [if_neg h0]
      exact Nat.ofDigits_digits 16 n
  unfold paddedDigits
  by_cases heven : (if n = 0 then [0] else Nat.digits 16 n).length % 2 = 0
  · simp only [heven, if_true]
    exact hbase
  · simp only [heven, if_false]
    rw [Nat.ofDigits_append, hbase]
    rfl

/-- The padding does not add the digit eleven. -/
theorem mem_paddedDigits (n : Nat) : 11 ∈ paddedDigits n ↔ 11 ∈ Nat.digits 16 n := by
  unfold paddedDigits
  by_cases h0 : n = 0
  · subst h0
    decide
  · simp only [if_neg h0]
    by_cases heven : (Nat.digits 16 n).length % 2 = 0
    · simp only [heven, if_true]
    · simp [heven]

theorem paddedDigits_length (n : UInt32) : (paddedDigits n.toNat).length ≤ 9 := by
  have hlen : (if n.toNat = 0 then [0] else Nat.digits 16 n.toNat).length ≤ 8 := by
    by_cases h0 : n.toNat = 0
    · rw [if_pos h0]
      decide
    · rw [if_neg h0, Nat.digits_length_le_iff (by decide)]
      exact n.toNat_lt
  unfold paddedDigits
  by_cases heven : (if n.toNat = 0 then [0] else Nat.digits 16 n.toNat).length % 2 = 0
  · simp only [heven, if_true]
    omega
  · simp only [heven, if_false, List.length_append, List.length_singleton]
    omega

/-! ## 3. Scanning a text -/

section Scan

variable {str : Bytes}

theorem spells_cstr (cs : List UInt8) (after : Bytes) : Spells (cstr cs after) 0 cs := by
  intro k h
  rw [Nat.zero_add, cstr_lt h]

/-- **A scan over a text without its end mark** takes all of it. -/
theorem scan_spells {stop : UInt8} {next : Nat → UInt8 → Nat} :
    ∀ (cs : List UInt8) {fuel i value : Nat}, cs.length < fuel → Spells str i cs →
      (∀ c ∈ cs, c ≠ stop) → str (i + cs.length) = stop →
      scan str stop next fuel i value = some (i + cs.length, cs.foldl next value) := by
  intro cs
  induction cs with
  | nil =>
    intro fuel i value hfuel _ _ hstop
    cases fuel with
    | zero => exact absurd hfuel (Nat.not_lt_zero _)
    | succ fuel =>
      have hend : str i = stop := hstop
      unfold scan
      rw [if_pos hend]
      rfl
  | cons c cs ih =>
    intro fuel i value hfuel hs hne hstop
    obtain ⟨hc, hcs⟩ := spells_cons.1 hs
    cases fuel with
    | zero => exact absurd hfuel (Nat.not_lt_zero _)
    | succ fuel =>
      have hlen : i + (c :: cs).length = i + 1 + cs.length := by
        rw [List.length_cons]
        omega
      rw [hlen] at hstop ⊢
      unfold scan
      rw [if_neg (hc ▸ hne c List.mem_cons_self), hc,
        ih (Nat.lt_of_succ_lt_succ hfuel) hcs (fun d hd => hne d (List.mem_cons_of_mem _ hd)) hstop]
      rfl

end Scan

/-! ## 4. Reading a colour -/

theorem hexChar_mark {d : Nat} (h : d < 16) : hexChar d = char 'B' ↔ d = 11 := by
  have hall : ∀ d < 16, hexChar d = char 'B' ↔ d = 11 := by decide
  exact hall d h

theorem hexChar_ne_semicolon {d : Nat} (h : d < 16) : hexChar d ≠ char ';' := by
  have hall : ∀ d < 16, hexChar d ≠ char ';' := by decide
  exact hall d h

/-- **A digit reads back.** -/
theorem colorDigit_hexChar (v : Nat) {d : Nat} (h : d < 16) :
    colorDigit 16 v (hexChar d) = u32 (v * 16 + d) := by
  have hcode : ∀ d < 16, (hexChar d).toNat =
      d + if char 'A' ≤ hexChar d ∧ hexChar d ≤ char 'F' then 55 else 48 := by decide
  have hoffset : (if char 'A' ≤ hexChar d ∧ hexChar d ≤ char 'F' then 55 else 48) ≤ 55 := by
    split <;> decide
  unfold colorDigit
  rw [hcode d h]
  generalize (if char 'A' ≤ hexChar d ∧ hexChar d ≤ char 'F' then 55 else 48) = offset at hoffset ⊢
  unfold sub32 u32
  omega

/-- **A row of digits reads back.** -/
theorem value_digits : ∀ (ds : List Nat), (∀ d ∈ ds, d < 16) →
    (ds.map hexChar).reverse.foldl (colorDigit 16) 0 = u32 (Nat.ofDigits 16 ds) := by
  intro ds
  induction ds with
  | nil =>
    intro _
    rfl
  | cons d ds ih =>
    intro h
    have hd : d < 16 := h d List.mem_cons_self
    rw [List.map_cons, List.reverse_cons, List.foldl_append,
      ih fun e he => h e (List.mem_cons_of_mem _ he), Nat.ofDigits_cons]
    simp only [List.foldl_cons, List.foldl_nil]
    rw [colorDigit_hexChar _ hd]
    unfold u32
    omega

section Read

variable {str : Bytes} {i : Nat} {stop : UInt8}

/-- **A hexadecimal colour** whose digits do not contain the end mark. -/
theorem readColor_digits {ds : List Nat} (h0x : Spells str i (text "0x"))
    (hs : Spells str (i + 2) (ds.map hexChar).reverse) (hlt : ∀ d ∈ ds, d < 16)
    (hne : ∀ d ∈ ds, hexChar d ≠ stop) (hstop : str (i + 2 + ds.length) = stop)
    (hlen : ds.length < indexTurns) :
    readColor str i stop = some (i + 2 + ds.length, u32 (Nat.ofDigits 16 ds)) := by
  have h0 : str i = char '0' := h0x 0 (by decide)
  have h1 : str (i + 1) = char 'x' := h0x 1 (by decide)
  have hcount : (ds.map hexChar).reverse.length = ds.length := by simp
  unfold readColor
  rw [if_pos ⟨h0, h1⟩, scan_spells _ (hcount.symm ▸ hlen) hs ?_ (hcount.symm ▸ hstop), hcount,
    value_digits ds hlt]
  intro c hc
  obtain ⟨d, hd, rfl⟩ := List.mem_map.1 (List.mem_reverse.1 hc)
  exact hne d hd

/-- Whatever stands in front of the end mark, the scan ends there. -/
theorem readColor_ends {cs : List UInt8} (hs : Spells str i cs) (hne : ∀ c ∈ cs, c ≠ stop)
    (hstop : str (i + cs.length) = stop) (hlen : cs.length < indexTurns) (hlong : 2 ≤ cs.length) :
    ∃ v, readColor str i stop = some (i + cs.length, v) := by
  unfold readColor
  by_cases hhex : str i = char '0' ∧ str (i + 1) = char 'x'
  · obtain ⟨a, b, cs, rfl⟩ : ∃ a b ds, cs = a :: b :: ds := by
      rcases cs with - | ⟨a, - | ⟨b, ds⟩⟩
      · exact absurd hlong (by simp)
      · exact absurd hlong (by simp)
      · exact ⟨a, b, ds, rfl⟩
    have hcount : i + (a :: b :: cs).length = i + 2 + cs.length := by
      simp only [List.length_cons]
      omega
    rw [hcount] at hstop
    rw [if_pos hhex, hcount, scan_spells cs ?_ (spells_cons.1 (spells_cons.1 hs).2).2
      (fun c hc => hne c (List.mem_cons_of_mem _ (List.mem_cons_of_mem _ hc))) hstop]
    · exact ⟨_, rfl⟩
    · simp only [List.length_cons] at hlen
      omega
  · rw [if_neg hhex, scan_spells cs hlen hs hne hstop]
    exact ⟨_, rfl⟩

end Read

/-! ## 5. The escape sequence -/

/-- The digits of a foreground that are read: those in front of the first eleven. -/
theorem cut_digits {ds : List Nat} (h : 11 ∈ ds) :
    ∃ high low, ds = low ++ 11 :: high ∧ 11 ∉ high ∧
      Nat.ofDigits 16 high < Nat.ofDigits 16 ds := by
  obtain ⟨front, back, hsplit, hfirst⟩ := List.eq_append_cons_of_mem (List.mem_reverse.2 h)
  have hds : ds = back.reverse ++ 11 :: front.reverse := by
    rw [← List.reverse_reverse ds, hsplit]
    simp
  refine ⟨front.reverse, back.reverse, hds, fun hm => hfirst (List.mem_reverse.1 hm), ?_⟩
  have hpos : 1 ≤ 16 ^ back.reverse.length := Nat.one_le_pow _ _ (by decide)
  have hmono : 11 + 16 * Nat.ofDigits 16 front.reverse ≤
      16 ^ back.reverse.length * (11 + 16 * Nat.ofDigits 16 front.reverse) :=
    Nat.le_mul_of_pos_left _ hpos
  rw [hds, Nat.ofDigits_append, Nat.ofDigits_cons]
  omega

/-- The text of a colour escape behind the escape character. -/
def colorText (fg bg : List Nat) : List UInt8 :=
  text "FG0x" ++ (fg.map hexChar).reverse ++ (text "BG0x" ++ (bg.map hexChar).reverse)

theorem colorText_length (fg bg : List Nat) :
    (colorText fg bg).length = fg.length + bg.length + 8 := by
  have hfg : (text "FG0x").length = 4 := by decide
  have hbg : (text "BG0x").length = 4 := by decide
  simp only [colorText, List.length_append, List.length_reverse, List.length_map, hfg, hbg]
  omega

/-- No digit and no letter of the text is the end mark of the background. -/
theorem ne_semicolon {c : UInt8} {low bg : List Nat} (hlow : ∀ d ∈ low, d < 16)
    (hbg : ∀ d ∈ bg, d < 16)
    (h : c ∈ (low.map hexChar).reverse ++ (text "BG0x" ++ (bg.map hexChar).reverse)) :
    c ≠ char ';' := by
  have htext : ∀ c ∈ text "BG0x", c ≠ char ';' := by decide +kernel
  simp only [List.mem_append, List.mem_reverse, List.mem_map] at h
  rcases h with ⟨d, hd, rfl⟩ | h | ⟨d, hd, rfl⟩
  · exact hexChar_ne_semicolon (hlow d hd)
  · exact htext c h
  · exact hexChar_ne_semicolon (hbg d hd)

section Colors

variable {str : Bytes} {i : Nat} {fg bg : List Nat}

/-- **A foreground without the digit eleven**, and the background behind it. -/
theorem readColor_whole (hs : Spells str i (colorText fg bg)) (hfg : ∀ d ∈ fg, d < 16)
    (hbg : ∀ d ∈ bg, d < 16) (hfgLen : fg.length ≤ 9) (hbgLen : bg.length ≤ 9)
    (hend : str (i + (colorText fg bg).length) = char ';') (hmark : 11 ∉ fg) :
    readColor str (i + 2) (char 'B') =
        some (i + (2 + 2 + fg.length), u32 (Nat.ofDigits 16 fg)) ∧
      readColor str (i + (2 + 2 + fg.length) + 2) (char ';') =
        some (i + (colorText fg bg).length, u32 (Nat.ofDigits 16 bg)) := by
  have hturns : 9 < indexTurns := by decide
  have hFG : text "FG0x" = text "FG" ++ text "0x" := by decide
  have hBG : text "BG0x" = char 'B' :: char 'G' :: text "0x" := by decide
  have htwo : (text "FG").length = 2 ∧ (text "0x").length = 2 := by decide
  rw [colorText_length] at hend ⊢
  unfold colorText at hs
  rw [hFG, hBG] at hs
  simp only [spells_append, spells_cons, List.cons_append, List.length_append, htwo,
    List.length_reverse, List.length_map] at hs
  obtain ⟨⟨⟨-, h0x⟩, hdigits⟩, hB, hG, h0x', hdigits'⟩ := hs
  have h4 : i + 2 + 2 = i + (2 + 2) := by omega
  have hfgEnd : i + 2 + 2 + fg.length = i + (2 + 2 + fg.length) := by omega
  have hbgEnd : i + (2 + 2 + fg.length) + 1 + 1 + 2 + bg.length =
      i + (fg.length + bg.length + 8) := by omega
  have hfirst := readColor_digits h0x (h4 ▸ hdigits) hfg
    (fun d hd he => hmark ((hexChar_mark (hfg d hd)).1 he ▸ hd)) (hfgEnd ▸ hB) (by omega)
  have hsecond := readColor_digits h0x' hdigits' hbg
    (fun d hd => hexChar_ne_semicolon (hbg d hd)) (hbgEnd ▸ hend) (by omega)
  rw [hfgEnd] at hfirst
  rw [hbgEnd] at hsecond
  exact ⟨hfirst, hsecond⟩

/-- **A foreground with the digit eleven** is cut in front of the first one. -/
theorem readColor_cut (hs : Spells str i (colorText fg bg)) (hfg : ∀ d ∈ fg, d < 16)
    (hbg : ∀ d ∈ bg, d < 16) (hfgLen : fg.length ≤ 9) (hbgLen : bg.length ≤ 9)
    (hend : str (i + (colorText fg bg).length) = char ';') (hmark : 11 ∈ fg) :
    ∃ j fgColor bgColor, readColor str (i + 2) (char 'B') = some (j, fgColor) ∧
      readColor str (j + 2) (char ';') = some (i + (colorText fg bg).length, bgColor) ∧
      fgColor < Nat.ofDigits 16 fg := by
  have hturns : 100 < indexTurns := by decide
  have hFG : text "FG0x" = text "FG" ++ text "0x" := by decide
  have htwo : (text "FG").length = 2 ∧ (text "0x").length = 2 := by decide
  have hfour : (text "BG0x").length = 4 := by decide
  obtain ⟨high, low, hsplit, hnot, hless⟩ := cut_digits hmark
  have hlow : ∀ d ∈ low, d < 16 := fun d hd => hfg d (hsplit ▸ List.mem_append_left _ hd)
  have hhigh : ∀ d ∈ high, d < 16 := fun d hd =>
    hfg d (hsplit ▸ List.mem_append_right _ (List.mem_cons_of_mem _ hd))
  have hcount : fg.length = low.length + high.length + 1 := by
    rw [hsplit, List.length_append, List.length_cons]
    omega
  -- what follows the digit that ends the scan
  let rest := (low.map hexChar).reverse ++ (text "BG0x" ++ (bg.map hexChar).reverse)
  have hrestLen : rest.length = low.length + bg.length + 4 := by
    simp only [rest, List.length_append, List.length_reverse, List.length_map, hfour]
    omega
  have htext : colorText fg bg = text "FG" ++ (text "0x" ++ ((high.map hexChar).reverse ++
      char 'B' :: rest)) := by
    have h11 : hexChar 11 = char 'B' := by decide
    simp only [colorText, hFG, hsplit, rest, List.map_append, List.map_cons, List.reverse_append,
      List.reverse_cons, h11, List.append_assoc, List.cons_append, List.nil_append]
  rw [colorText_length] at hend ⊢
  rw [htext] at hs
  simp only [spells_append, spells_cons, htwo, List.length_reverse, List.length_map] at hs
  obtain ⟨-, h0x, hdigits, hB, hrest⟩ := hs
  refine ⟨i + 2 + 2 + high.length, u32 (Nat.ofDigits 16 high), ?_⟩
  have hfirst : readColor str (i + 2) (char 'B') =
      some (i + 2 + 2 + high.length, u32 (Nat.ofDigits 16 high)) := by
    refine readColor_digits h0x hdigits hhigh (fun d hd he => ?_) hB (by omega)
    exact hnot ((hexChar_mark (hhigh d hd)).1 he ▸ hd)
  obtain ⟨c, tail, htail⟩ : ∃ c tail, rest = c :: tail :=
    List.exists_cons_of_length_pos (by omega)
  have htailLen : tail.length = low.length + bg.length + 3 := by
    have := congrArg List.length htail
    rw [List.length_cons, hrestLen] at this
    omega
  rw [htail, spells_cons] at hrest
  have hstop : i + 2 + 2 + high.length + 1 + 1 + tail.length = i + (fg.length + bg.length + 8) := by
    omega
  obtain ⟨bgColor, hsecond⟩ := readColor_ends hrest.2
    (fun c' hc => ne_semicolon hlow hbg (by
      have hmem : c' ∈ rest := htail ▸ List.mem_cons_of_mem _ hc
      exact hmem))
    (hstop.symm ▸ hend) (by omega) (by omega)
  rw [hstop] at hsecond
  exact ⟨bgColor, hfirst, hsecond, Nat.lt_of_le_of_lt (Nat.mod_le _ _) hless⟩

end Colors

/-- An escape sequence that begins with `FG` sets the colours. -/
theorem escape_colors {g : VbeModeInfo} {str : Bytes} {i : Nat} {t : Tty}
    (hs : Spells str i (text "FG")) : escape g str i t = setColors g str i t := by
  have h0 : str i = char 'F' := hs 0 (by decide)
  have h1 : str (i + 1) = char 'G' := hs 1 (by decide)
  have hX : str i ≠ char 'X' := by
    rw [h0]
    decide
  have hCLS : beginsAt str i (text "CLS;") = false := by
    have hlit : text "CLS;" = [67, 76, 83, 59] := by decide
    have hF : char 'F' = 70 := by decide
    simp [beginsAt, strncmpEq, strncmpLoop, u8, hlit, slice, cstr, h0, hF]
  have hFG : beginsAt str i (text "FG") = true := by
    have hlit : text "FG" = [70, 71] := by decide
    have hF : char 'F' = 70 ∧ char 'G' = 71 := by decide
    simp [beginsAt, strncmpEq, strncmpLoop, u8, hlit, slice, cstr, h0, h1, hF]
  unfold escape
  rw [if_neg hX, hCLS, hFG]
  rfl

/-- A text that one escape sequence takes up. -/
theorem terminalWrite_single {g : VbeModeInfo} {str : Bytes} {n : Nat} {t t' : Tty}
    (h0 : str 0 = 0x1b) (h : escape g str 1 t = some (n, t')) :
    terminalWrite g t str (n + 1) = some (n + 1, drawCursor g t'.showCursor t') := by
  obtain ⟨fuel, hfuel⟩ : ∃ fuel, indexTurns = fuel + 1 + 1 := ⟨indexTurns - 2, by decide⟩
  have hne : str 0 ≠ 0 := by
    rw [h0]
    decide
  have hat : writeAt g t.font str 0 t = some (n, t') := by
    unfold writeAt
    rw [if_pos h0]
    exact h
  have hdone : writeLoop g t.font str (n + 1) (fuel + 1) (n + 1) t' = some (n + 1, t') := by
    unfold writeLoop
    rw [if_neg fun hc => Nat.lt_irrefl _ hc.1]
  have hloop : writeLoop g t.font str (n + 1) indexTurns 0 t = some (n + 1, t') := by
    rw [hfuel]
    unfold writeLoop
    rw [if_pos ⟨Nat.succ_pos n, hne⟩, hat]
    exact hdone
  unfold terminalWrite
  rw [hloop]
  rfl

/-- **A colour escape written to the terminal** is taken whole and draws the cursor only.  The
foreground comes back when it has no digit eleven, and as a smaller number when it has one. -/
theorem terminalWrite_colors (g : VbeModeInfo) (t : Tty) (e : Stack) (after : Bytes) :
    ∃ out fgColor bgColor, printf e colorFormat = some out ∧
      terminalWrite g t (cstr out after) out.length =
        some (out.length, drawCursor g t.showCursor { t with
          fgColor := fgColor
          bgColor := bgColor
          userFg := convertColor g fgColor
          userBg := convertColor g bgColor }) ∧
      (11 ∉ Nat.digits 16 (e.args 0).toNat →
        fgColor = (e.args 0).toNat ∧ bgColor = (e.args 1).toNat) ∧
      (11 ∈ Nat.digits 16 (e.args 0).toNat → fgColor < (e.args 0).toNat) := by
  let fg := paddedDigits (e.args 0).toNat
  let bg := paddedDigits (e.args 1).toNat
  let out : List UInt8 := 0x1b :: (colorText fg bg ++ [char ';'])
  have hout : printf e colorFormat = some out := by
    rw [printf_colorFormat, printfHex_eq, printfHex_eq]
    simp only [out, colorText, fg, bg, List.append_assoc]
    rfl
  have hlen : out.length = 1 + (colorText fg bg).length + 1 := by
    simp only [out, List.length_cons, List.length_append, List.length_nil]
    omega
  have hfg : ∀ d ∈ fg, d < 16 := fun d hd => paddedDigits_lt hd
  have hbg : ∀ d ∈ bg, d < 16 := fun d hd => paddedDigits_lt hd
  have hfgLen : fg.length ≤ 9 := paddedDigits_length (e.args 0)
  have hbgLen : bg.length ≤ 9 := paddedDigits_length (e.args 1)
  have hspell : Spells (cstr out after) 0 out := spells_cstr out after
  obtain ⟨hescape, hrest⟩ := spells_cons.1 hspell
  obtain ⟨hcolors, hend⟩ := spells_append.1 hrest
  have hFG : Spells (cstr out after) 1 (text "FG") := by
    have hsplit : colorText fg bg = text "FG" ++ (text "0x" ++ (fg.map hexChar).reverse ++
        (text "BG0x" ++ (bg.map hexChar).reverse)) := rfl
    rw [hsplit] at hcolors
    exact (spells_append.1 hcolors).1
  have hread : ∃ fgColor bgColor,
      setColors g (cstr out after) 1 t = some (1 + (colorText fg bg).length, { t with
        fgColor := fgColor
        bgColor := bgColor
        userFg := convertColor g fgColor
        userBg := convertColor g bgColor }) ∧
      (11 ∉ fg → fgColor = (e.args 0).toNat ∧ bgColor = (e.args 1).toNat) ∧
      (11 ∈ fg → fgColor < (e.args 0).toNat) := by
    by_cases hmark : 11 ∈ fg
    · obtain ⟨j, fgColor, bgColor, hfirst, hsecond, hless⟩ :=
        readColor_cut hcolors hfg hbg hfgLen hbgLen (spells_cons.1 hend).1 hmark
      refine ⟨fgColor, bgColor, ?_, fun h => absurd hmark h, fun _ => ?_⟩
      · simp [setColors, hfirst, hsecond]
      · rwa [ofDigits_paddedDigits] at hless
    · obtain ⟨hfirst, hsecond⟩ :=
        readColor_whole hcolors hfg hbg hfgLen hbgLen (spells_cons.1 hend).1 hmark
      rw [ofDigits_paddedDigits, u32_eq (e.args 0).toNat_lt] at hfirst
      rw [ofDigits_paddedDigits, u32_eq (e.args 1).toNat_lt] at hsecond
      exact ⟨_, _, by simp [setColors, hfirst, hsecond], fun _ => ⟨rfl, rfl⟩,
        fun h => absurd h hmark⟩
  obtain ⟨fgColor, bgColor, hset, hwhole, hcut⟩ := hread
  rw [mem_paddedDigits] at hwhole hcut
  refine ⟨out, fgColor, bgColor, hout, ?_, hwhole, hcut⟩
  rw [hlen]
  exact terminalWrite_single hescape ((escape_colors hFG).trans hset)

/-! ## 6. The round trip -/

/-- **The colours come back**: the text that `printf` makes of `fg` and `bg` is taken whole, sets
the two colours, and leaves the position and, but for the cursor, the screen as they are. -/
def ColorsDecoded (g : VbeModeInfo) (t : Tty) (e : Stack) (after : Bytes) : Prop :=
  ∃ out t', printf e colorFormat = some out ∧
    terminalWrite g t (cstr out after) out.length = some (out.length, t') ∧
    t'.fgColor = (e.args 0).toNat ∧ t'.bgColor = (e.args 1).toNat ∧
    t'.x = t.x ∧ t'.y = t.y ∧
    t'.mem = (drawCursor g t.showCursor { t' with mem := t.mem }).mem

/-- **Colour escapes decode to what was encoded exactly when the foreground has no hexadecimal
digit `B`.** -/
theorem colorsDecoded_iff (g : VbeModeInfo) (t : Tty) (e : Stack) (after : Bytes) :
    ColorsDecoded g t e after ↔ 11 ∉ Nat.digits 16 (e.args 0).toNat := by
  obtain ⟨out, fgColor, bgColor, hout, hwrite, hwhole, hcut⟩ := terminalWrite_colors g t e after
  constructor
  · rintro ⟨out', t', hout', hwrite', hfg, -⟩ hmark
    obtain rfl : out = out' := Option.some.inj (hout.symm.trans hout')
    have ht' := congrArg (fun r => r.map fun p => p.2.fgColor) (hwrite.symm.trans hwrite')
    have hcolor : fgColor = t'.fgColor := Option.some.inj ht'
    have := hcut hmark
    omega
  · intro hmark
    obtain ⟨hfg, hbg⟩ := hwhole hmark
    exact ⟨out, _, hout, hwrite, hfg, hbg, rfl, rfl, rfl⟩

/-- The arguments `0xB0` and 0. -/
def blueArgs : Stack := ⟨fun k => if k = 0 then 0xB0 else 0, fun _ => [], fun _ => 0⟩

/-- The foreground `0xB0` is read back as 0. -/
theorem colors_lost : ¬ ColorsDecoded mode1024 freshTerminal blueArgs fun _ => 0 := by
  rintro ⟨out, t', hout, hwrite, hfg, -⟩
  have hread : ((printf blueArgs colorFormat).bind fun out =>
      (terminalWrite mode1024 freshTerminal (cstr out fun _ => 0) out.length).map
        fun p => p.2.fgColor) = some 0 := by decide +kernel
  rw [hout, Option.bind_some, hwrite, Option.map_some, hfg] at hread
  exact absurd hread (by decide)

end AmateurOs.Terminal
