/-
# `memcmp`

`memcmp` of `include/C/string.h` steps both pointers past the bytes that agree, and returns the
difference of what they point to then.  Where all `len` bytes agree that is the byte behind them: the
result is 0 only if the two bytes there agree too.

So `memcmp` does what its comment says exactly where it is asked for no bytes, where two of them
differ, or where the next two agree (`comparesExactly_iff`).  `fs_create_file` looks for the special
names with it, and compares the terminator too: `"."` is refused or not by the byte behind the
terminator (`memcmp_exact_iff`).
-/
import AmateurOs.Fs.Ownership

namespace AmateurOs.Strings

open AmateurOs.Lib AmateurOs.Fs

/-! ## 1. The function -/

/-- The loop, with `len` bytes left: how far the pointers get. -/
def memcmpLoop (s1 s2 : Bytes) : Nat → Nat → Nat
  | 0, k => k
  | len + 1, k => if s1 k = s2 k then memcmpLoop s1 s2 len (k + 1) else k

/-- `memcmp`; a buffer is the memory from its address on. -/
def memcmp (s1 s2 : Bytes) (len : Nat) : Int :=
  if len = 0 then 0
  else
    let k := memcmpLoop s1 s2 len 0
    (s1 k).toNat - (s2 k).toNat

section

variable {s1 s2 : Bytes}

/-- **The loop** stops at the first difference, or behind the last byte. -/
theorem memcmpLoop_spec : ∀ (len k : Nat), k ≤ memcmpLoop s1 s2 len k ∧
    memcmpLoop s1 s2 len k ≤ k + len ∧
    (∀ j, k ≤ j → j < memcmpLoop s1 s2 len k → s1 j = s2 j) ∧
    (memcmpLoop s1 s2 len k < k + len → s1 (memcmpLoop s1 s2 len k) ≠ s2 (memcmpLoop s1 s2 len k))
  | 0, k => by
    unfold memcmpLoop
    exact ⟨Nat.le_refl k, Nat.le_refl k, fun j hle hlt => by omega, fun hlt => by omega⟩
  | len + 1, k => by
    unfold memcmpLoop
    by_cases heq : s1 k = s2 k
    · obtain ⟨hle, hge, hsame, hdiff⟩ := memcmpLoop_spec len (k + 1)
      rw [if_pos heq]
      refine ⟨by omega, by omega, fun j hj hlt => ?_, fun hlt => hdiff (by omega)⟩
      rcases Nat.eq_or_lt_of_le hj with rfl | hj
      · exact heq
      · exact hsame j hj hlt
    · rw [if_neg heq]
      exact ⟨Nat.le_refl k, Nat.le_add_right _ _, fun j hle hlt => by omega, fun _ => heq⟩

variable {len k : Nat}

/-- **The first difference** is the result. -/
theorem memcmp_first (hk : k < len) (hbefore : ∀ j < k, s1 j = s2 j) (hdiff : s1 k ≠ s2 k) :
    memcmp s1 s2 len = (s1 k).toNat - (s2 k).toNat := by
  obtain ⟨-, -, hsame, hstop⟩ := @memcmpLoop_spec s1 s2 len 0
  have hat : memcmpLoop s1 s2 len 0 = k := by
    rcases Nat.lt_trichotomy (memcmpLoop s1 s2 len 0) k with hlt | heq | hgt
    · exact absurd (hbefore _ hlt) (hstop (by omega))
    · exact heq
    · exact absurd (hsame k (Nat.zero_le k) hgt) hdiff
  unfold memcmp
  rw [if_neg (by omega), hat]

/-- **Where all bytes agree** the result is the difference of the bytes behind them. -/
theorem memcmp_past (hlen : 0 < len) (hall : ∀ k < len, s1 k = s2 k) :
    memcmp s1 s2 len = (s1 len).toNat - (s2 len).toNat := by
  obtain ⟨-, hle, -, hstop⟩ := @memcmpLoop_spec s1 s2 len 0
  have hat : memcmpLoop s1 s2 len 0 = len := by
    by_contra hne
    exact hstop (by omega) (hall _ (by omega))
  unfold memcmp
  rw [if_neg (by omega), hat]

theorem byte_sub_eq_zero {a b : UInt8} : (a.toNat : Int) - b.toNat = 0 ↔ a = b := by
  rw [← UInt8.toNat_inj]
  omega

/-- There is a first difference, or none. -/
theorem first_difference (s1 s2 : Bytes) (len : Nat) : (∀ k < len, s1 k = s2 k) ∨
    ∃ k < len, (∀ j < k, s1 j = s2 j) ∧ s1 k ≠ s2 k := by
  obtain ⟨-, hle, hsame, hstop⟩ := @memcmpLoop_spec s1 s2 len 0
  rcases Nat.lt_or_ge (memcmpLoop s1 s2 len 0) len with hlt | hge
  · exact Or.inr ⟨_, hlt, fun j hj => hsame j (Nat.zero_le j) hj, hstop (by omega)⟩
  · exact Or.inl fun k hk => hsame k (Nat.zero_le k) (by omega)

/-- **The result is 0** where one byte more agrees. -/
theorem memcmp_zero_iff (hlen : 0 < len) : memcmp s1 s2 len = 0 ↔ ∀ k ≤ len, s1 k = s2 k := by
  rcases first_difference s1 s2 len with hall | ⟨k, hk, hbefore, hdiff⟩
  · rw [memcmp_past hlen hall, byte_sub_eq_zero]
    constructor
    · intro hpast k hk
      rcases Nat.lt_or_eq_of_le hk with hlt | rfl
      · exact hall k hlt
      · exact hpast
    · exact fun hmore => hmore len (Nat.le_refl len)
  · rw [memcmp_first hk hbefore hdiff, byte_sub_eq_zero]
    exact iff_of_false hdiff fun hmore => hdiff (hmore k (Nat.le_of_lt hk))

/-! ## 2. What its comment says -/

/-- **`memcmp` compares `len` bytes**: the result is 0 exactly where they agree, and otherwise it has
the sign of the first difference. -/
def ComparesExactly (s1 s2 : Bytes) (len : Nat) : Prop :=
  (memcmp s1 s2 len = 0 ↔ ∀ k < len, s1 k = s2 k) ∧
    ∀ k < len, (∀ j < k, s1 j = s2 j) → s1 k ≠ s2 k →
      (memcmp s1 s2 len).sign = ((s1 k).toNat - (s2 k).toNat : Int).sign

/-- **When it does**: the bytes behind agree where all those in front of them do. -/
theorem comparesExactly_iff : ComparesExactly s1 s2 len ↔
    (0 < len → (∀ k < len, s1 k = s2 k) → s1 len = s2 len) := by
  constructor
  · rintro ⟨hzero, -⟩ hlen hall
    exact (memcmp_zero_iff hlen).mp (hzero.mpr hall) len (Nat.le_refl len)
  · intro hpast
    refine ⟨?_, fun k hk hbefore hdiff => by rw [memcmp_first hk hbefore hdiff]⟩
    rcases Nat.eq_zero_or_pos len with rfl | hlen
    · exact iff_of_true rfl fun k hk => absurd hk (Nat.not_lt_zero k)
    · rw [memcmp_zero_iff hlen]
      constructor
      · exact fun hmore k hk => hmore k (Nat.le_of_lt hk)
      · intro hall k hk
        rcases Nat.lt_or_eq_of_le hk with hlt | rfl
        · exact hall k hlt
        · exact hpast hlen hall

/-! ## 3. The special names -/

/-- `memcmp(s1, s2, len) == 0`, as `fs_create_file` asks. -/
theorem memcmpEq_iff : memcmpEq s1 s2 len = true ↔ memcmp s1 s2 len = 0 := by
  have hloop : ∀ n k, Fs.memcmpLoop s1 s2 n k = true ↔
      s1 (memcmpLoop s1 s2 n k) = s2 (memcmpLoop s1 s2 n k) := by
    intro n
    induction n with
    | zero => exact fun k => beq_iff_eq
    | succ n ih =>
      intro k
      unfold Fs.memcmpLoop memcmpLoop
      by_cases heq : s1 k = s2 k
      · rw [if_pos heq, if_pos heq]
        exact ih (k + 1)
      · rw [if_neg heq, if_neg heq]
        exact iff_of_false Bool.false_ne_true heq
  unfold memcmpEq memcmp
  split
  · exact iff_of_true rfl rfl
  · rw [byte_sub_eq_zero]
    exact hloop len 0

/-- Strings agree up to their terminators where they are the same. -/
theorem cstr_agree_iff {chars name : List UInt8} {after after' : Bytes} (hchars : ∀ c ∈ chars, c ≠ 0)
    (hname : ∀ c ∈ name, c ≠ 0) :
    (∀ k ≤ name.length, cstr chars after k = cstr name after' k) ↔ chars = name := by
  constructor
  · intro hagree
    have hlength : chars.length = name.length := by
      rcases Nat.lt_trichotomy chars.length name.length with hlt | heq | hgt
      · have hzero := hagree chars.length (Nat.le_of_lt hlt)
        rw [cstr_length, cstr_lt hlt] at hzero
        exact absurd hzero.symm (hname _ (List.getElem_mem _))
      · exact heq
      · have hzero := hagree name.length (Nat.le_refl _)
        rw [cstr_length, cstr_lt hgt] at hzero
        exact absurd hzero (hchars _ (List.getElem_mem _))
    refine List.ext_getElem hlength fun k hk hk' => ?_
    have hbyte := hagree k (Nat.le_of_lt hk')
    rwa [cstr_lt hk, cstr_lt hk'] at hbyte
  · rintro rfl k hk
    rcases Nat.lt_or_eq_of_le hk with hlt | rfl
    · rw [cstr_lt hlt, cstr_lt hlt]
    · rw [cstr_length, cstr_length]

theorem cstr_behind (chars : List UInt8) (after : Bytes) :
    cstr chars after (chars.length + 1) = after 0 := by
  unfold cstr
  rw [dif_neg (by omega), if_neg (by omega), Nat.add_sub_cancel_left]

end

/-- **A name compared with its terminator**: the path is the name, and the bytes behind agree. -/
theorem memcmpEq_name {name : List UInt8} (hname : ∀ c ∈ name, c ≠ 0) (path : CString)
    (after : Bytes) : memcmpEq path.bytes (cstr name after) (name.length + 1) = true ↔
      path.chars = name ∧ path.after 0 = after 0 := by
  rw [memcmpEq_iff, memcmp_zero_iff (Nat.succ_pos _)]
  have hagree := @cstr_agree_iff path.chars name path.after after path.nonzero hname
  constructor
  · intro hmore
    have hsame := hagree.mp fun k hk => hmore k (Nat.le_succ_of_le hk)
    have hbehind := hmore (name.length + 1) (Nat.le_refl _)
    rw [cstr_behind, ← hsame] at hbehind
    exact ⟨hsame, (cstr_behind path.chars path.after).symm.trans hbehind⟩
  · rintro ⟨hsame, hbehind⟩ k hk
    rcases Nat.lt_or_eq_of_le hk with hlt | rfl
    · exact hagree.mpr hsame k (Nat.le_of_lt_succ hlt)
    · rw [cstr_behind, ← hbehind, ← hsame]
      exact cstr_behind path.chars path.after

/-- `"."`, `".."` and `"/"`. -/
def SpecialText (chars : List UInt8) : Prop :=
  chars = [dot] ∨ chars = [dot, dot] ∨ chars = [slash]

section

variable (env : Env) (path : CString)

/-- **What `fs_create_file` refuses.** -/
theorem createRefused_iff : createRefused env path = true ↔
    (path.chars = [dot] ∧ path.after 0 = env.afterDot 0) ∨
      (path.chars = [dot, dot] ∧ path.after 0 = env.afterDotDot 0) ∨
      (path.chars = [slash] ∧ path.after 0 = env.afterSlash 0) := by
  have hdot := @memcmpEq_name [dot] (by simp [dot]) path env.afterDot
  have hdots := @memcmpEq_name [dot, dot] (by simp [dot]) path env.afterDotDot
  have hslash := @memcmpEq_name [slash] (by simp [slash]) path env.afterSlash
  unfold createRefused
  rw [Bool.or_eq_true, Bool.or_eq_true, or_assoc]
  exact or_congr hdot (or_congr hdots hslash)

/-- **The special names are refused**, and no others. -/
def RefusesSpecial : Prop := createRefused env path = true ↔ SpecialText path.chars

/-- The byte behind the path is the one behind the literal that it is compared with. -/
def BehindAgrees : Prop :=
  (path.chars = [dot] → path.after 0 = env.afterDot 0) ∧
    (path.chars = [dot, dot] → path.after 0 = env.afterDotDot 0) ∧
    (path.chars = [slash] → path.after 0 = env.afterSlash 0)

theorem refusesSpecial_iff : RefusesSpecial env path ↔ BehindAgrees env path := by
  have hdots : ([dot] : List UInt8) ≠ [dot, dot] := by simp
  have hslash : ([dot] : List UInt8) ≠ [slash] := by simp [dot, slash]
  have hslash' : ([dot, dot] : List UInt8) ≠ [slash] := by simp
  unfold RefusesSpecial BehindAgrees SpecialText
  rw [createRefused_iff]
  constructor
  · intro hrefuses
    refine ⟨fun htext => ?_, fun htext => ?_, fun htext => ?_⟩
    · have hrefused := hrefuses.mpr (Or.inl htext)
      simpa [htext, hdots, hslash] using hrefused
    · have hrefused := hrefuses.mpr (Or.inr (Or.inl htext))
      simpa [htext, hdots.symm, hslash'] using hrefused
    · have hrefused := hrefuses.mpr (Or.inr (Or.inr htext))
      simpa [htext, hslash.symm, hslash'.symm] using hrefused
  · rintro ⟨h1, h2, h3⟩
    exact or_congr (and_iff_left_of_imp h1) (or_congr (and_iff_left_of_imp h2)
      (and_iff_left_of_imp h3))

end

/-- **The refusal depends on the text of the path alone.** -/
def RefusesByText (chars : List UInt8) : Prop :=
  ∃ refused, ∀ (env : Env) (path : CString), path.chars = chars → createRefused env path = refused

/-- A path with its text, and a byte behind the terminator. -/
def followed (chars : List UInt8) (hne : ∀ c ∈ chars, c ≠ 0) (behind : UInt8) : CString :=
  ⟨chars, hne, fun _ => behind⟩

/-- **That of a special name does not.** -/
theorem refusesByText_iff (chars : List UInt8) : RefusesByText chars ↔ ¬ SpecialText chars := by
  constructor
  · rintro ⟨refused, hrefused⟩ htext
    have hne : ∀ c ∈ chars, c ≠ 0 := by
      rcases htext with rfl | rfl | rfl <;> simp [dot, slash]
    -- the literals are followed by zeros, and the path by a zero and by something else
    have hquiet := hrefused quietEnv (followed chars hne 0) rfl
    have hother := hrefused quietEnv (followed chars hne 1) rfl
    have hagrees : BehindAgrees quietEnv (followed chars hne 0) :=
      ⟨fun _ => rfl, fun _ => rfl, fun _ => rfl⟩
    have htrue : refused = true := by
      rw [← hquiet]
      exact ((refusesSpecial_iff _ _).mpr hagrees).mpr htext
    have hfalse : createRefused quietEnv (followed chars hne 1) = true := hother.trans htrue
    obtain ⟨h1, h2, h3⟩ := (refusesSpecial_iff quietEnv (followed chars hne 1)).mp
      (iff_of_true hfalse htext)
    have hne' : (1 : UInt8) ≠ 0 := by decide
    rcases htext with hdot | hdots | hslash
    · exact hne' (h1 hdot)
    · exact hne' (h2 hdots)
    · exact hne' (h3 hslash)
  · intro htext
    refine ⟨false, fun env path hpath => ?_⟩
    rw [← hpath] at htext
    refine Bool.eq_false_iff.mpr fun hrefused => htext ?_
    rcases (createRefused_iff env path).mp hrefused with ⟨hdot, -⟩ | ⟨hdots, -⟩ | ⟨hslash, -⟩
    · exact Or.inl hdot
    · exact Or.inr (Or.inl hdots)
    · exact Or.inr (Or.inr hslash)

/-- **When `memcmp` compares exactly `len` bytes, and what `fs_create_file` makes of it.** -/
theorem memcmp_exact_iff (s1 s2 : Bytes) (len : Nat) (env : Env) (path : CString) :
    (ComparesExactly s1 s2 len ↔ (0 < len → (∀ k < len, s1 k = s2 k) → s1 len = s2 len)) ∧
      (RefusesSpecial env path ↔ BehindAgrees env path) ∧
      (RefusesByText path.chars ↔ ¬ SpecialText path.chars) :=
  ⟨comparesExactly_iff, refusesSpecial_iff env path, refusesByText_iff path.chars⟩

/-- **One byte behind**: two buffers that agree in the one byte compared and not in the next, and
`"."` with a letter behind the terminator, which is not refused. -/
theorem memcmp_behind :
    (¬ ComparesExactly (fun k => if k = 1 then 120 else 0) (fun _ => 0) 1) ∧
      ¬ RefusesSpecial quietEnv (followed [dot] (by simp [dot]) 120) := by
  constructor
  · rintro ⟨hzero, -⟩
    have hresult := hzero.mpr fun k hk => if_neg (by omega)
    exact absurd hresult (by decide)
  · intro hrefuses
    have hrefused := hrefuses.mpr (Or.inl rfl)
    exact absurd hrefused (by decide)

end AmateurOs.Strings
