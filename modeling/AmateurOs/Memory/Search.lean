/-
# The search for several blocks

`find_first_free_blocks` looks for a run of blocks that begins at a clear bit.  For the run from
bit `j` of word `i` on it tests bits of the words `i` and `i + 1` only (`probed`): what would lie
further on is tested at its place in word `i + 1`.  And it starts no run in the last word when that
word is not a whole one.

So a run that is found may be too short, and one that lies at the end is not found.  The search is
right when the first run that is clear as far as the end of word `i + 1` goes on so and ends below
`max_blocks`, and when without such a run there is none at the end (`search_right_iff`); in
particular for runs that end in the next word and whose start lies in a whole one.
-/
import AmateurOs.Memory.Physical

namespace AmateurOs.Memory

open AmateurOs.Lib

/-! ## 1. What is tested -/

/-- The block whose bit is tested as number `count` of the run from block `b` on. -/
def probed (b count : Nat) : Nat :=
  let tested := u32 (b % 32 + count)
  if tested > 31 then (b / 32 + 1) * 32 + (tested - 32) % 32 else b / 32 * 32 + tested

/-- **A run that looks free**: every bit that is tested for it is clear. -/
def LooksFree (m : Manager) (n b : Nat) : Prop :=
  ∀ count < n, bitAt m.memoryMap (probed b count) = false

instance (m : Manager) (n b : Nat) : Decidable (LooksFree m n b) :=
  inferInstanceAs (Decidable (∀ count < n, _))

/-- **A run of free blocks.** -/
def Run (m : Manager) (n b : Nat) : Prop :=
  b + n ≤ m.maxBlocks ∧ ∀ k < n, bitAt m.memoryMap (b + k) = false

/-- **A run that is clear as far as the end of the word behind its first**; and, where its length
leads past 2^32, in the bits of its first word that it comes round to. -/
def ClearAhead (m : Manager) (n b : Nat) : Prop :=
  (∀ k < n, b + k < (b / 32 + 2) * 32 → bitAt m.memoryMap (b + k) = false) ∧
    ∀ k < 32, k + 4294967296 < b % 32 + n → bitAt m.memoryMap (b / 32 * 32 + k) = false

/-- The bits of a run that lie in its first word and in the next are tested, and all other tests
are of those words. -/
theorem looksFree_iff {m : Manager} {n b : Nat} : LooksFree m n b ↔ ClearAhead m n b := by
  constructor
  · refine fun hfree => ⟨fun k hk hnear => ?_, fun k hk hround => ?_⟩
    · have hplace : probed b k = b + k := by
        unfold probed
        simp only
        rw [u32_eq (by omega)]
        split <;> omega
      rw [← hplace]
      exact hfree k hk
    · have hplace : probed b (k + 4294967296 - b % 32) = b / 32 * 32 + k := by
        have hword : u32 (b % 32 + (k + 4294967296 - b % 32)) = k := by
          unfold u32
          omega
        unfold probed
        simp only
        rw [hword, if_neg (by omega)]
      rw [← hplace]
      exact hfree _ (by omega)
  · rintro ⟨hnear, hround⟩ count hcount
    -- the place that is tested is one of the run, or one that it comes round to
    have hplaces : (∃ k < n, b + k < (b / 32 + 2) * 32 ∧ probed b count = b + k) ∨
        ∃ k < 32, k + 4294967296 < b % 32 + n ∧ probed b count = b / 32 * 32 + k := by
      unfold probed u32
      simp only
      split
      · exact Or.inl ⟨(b / 32 + 1) * 32 + ((b % 32 + count) % 4294967296 - 32) % 32 - b,
          by omega, by omega, by omega⟩
      · by_cases hless : b % 32 + count < 4294967296
        · exact Or.inl ⟨count, hcount, by omega, by omega⟩
        · exact Or.inr ⟨(b % 32 + count) % 4294967296, by omega, by omega, rfl⟩
    rcases hplaces with ⟨k, hk, hlt, hplace⟩ | ⟨k, hk, hlt, hplace⟩
    · rw [hplace]
      exact hnear k hk hlt
    · rw [hplace]
      exact hround k hk hlt

/-- A free run is clear ahead. -/
theorem Run.clearAhead {m : Manager} {n b : Nat} (hmax : m.maxBlocks < 4294967296)
    (h : Run m n b) : ClearAhead m n b :=
  ⟨fun k hk _ => h.2 k hk, fun k _ hround => by
    have hle := h.1
    omega⟩

/-! ## 2. What is found -/

/-- The bit that is tested. -/
theorem probed_bit {m : Manager} {i j count : Nat} (hi : i < m.maxBlocks / 32) (hj : j < 32) :
    (if u32 (j + count) > 31 ∧ i + 1 ≤ m.maxBlocks / 32 then
      (le32 m.memoryMap (4 * (i + 1))).testBit ((u32 (j + count) - 32) % 32)
      else (le32 m.memoryMap (4 * i)).testBit (u32 (j + count) % 32)) =
        bitAt m.memoryMap (probed (i * 32 + j) count) := by
  have hword : ∀ w k, k < 32 → (le32 m.memoryMap (4 * w)).testBit k =
      bitAt m.memoryMap (w * 32 + k) := by
    intro w k hk
    have h := testBit_le32 m.memoryMap (w * 32 + k)
    rw [(by omega : (w * 32 + k) / 32 = w), (by omega : (w * 32 + k) % 32 = k)] at h
    exact h
  have hi' : (i * 32 + j) / 32 = i := by omega
  have hj' : (i * 32 + j) % 32 = j := by omega
  unfold probed
  rw [hi', hj']
  simp only
  by_cases hfar : u32 (j + count) > 31
  · rw [if_pos ⟨hfar, hi⟩, if_pos hfar, hword _ _ (Nat.mod_lt _ (by decide))]
  · rw [if_neg (fun hand => hfar hand.1), if_neg hfar, hword _ _ (Nat.mod_lt _ (by decide)),
      Nat.mod_eq_of_lt (by omega)]

section

variable {m : Manager} {i j n : Nat} (hi : i < m.maxBlocks / 32) (hj : j < 32)

include hi hj

/-- Once a bit was set, the count stays behind. -/
theorem countFree_behind : ∀ {fuel count free : Nat}, free + fuel < n →
    countFree m i j n fuel count free = false := by
  intro fuel
  induction fuel with
  | zero => exact fun _ => rfl
  | succ fuel ih =>
    intro count free h
    unfold countFree
    simp only [probed_bit hi hj]
    cases bitAt m.memoryMap (probed (i * 32 + j) count)
    · rw [if_neg Bool.false_ne_true, if_neg (by omega)]
      exact ih (by omega)
    · rw [if_pos rfl, if_neg (by omega)]
      exact ih (by omega)

/-- **The inner loop** finds every tested bit clear. -/
theorem countFree_iff : ∀ {fuel count : Nat}, 0 < fuel → count + fuel = n →
    (countFree m i j n fuel count count = true ↔
      ∀ c, count ≤ c → c < n → bitAt m.memoryMap (probed (i * 32 + j) c) = false) := by
  intro fuel
  induction fuel with
  | zero => exact fun h => absurd h (Nat.lt_irrefl 0)
  | succ fuel ih =>
    intro count _ hn
    unfold countFree
    simp only [probed_bit hi hj]
    cases hbit : bitAt m.memoryMap (probed (i * 32 + j) count) with
    | true =>
      rw [if_pos rfl, if_neg (by omega), countFree_behind hi hj (by omega)]
      refine iff_of_false Bool.false_ne_true fun hall => ?_
      rw [hall count (Nat.le_refl _) (by omega)] at hbit
      cases hbit
    | false =>
      rw [if_neg Bool.false_ne_true]
      by_cases hlast : count + 1 = n
      · rw [if_pos hlast]
        refine iff_of_true rfl fun c hge hlt => ?_
        obtain rfl : c = count := by omega
        exact hbit
      · rw [if_neg hlast, ih (by omega) (by omega)]
        constructor
        · intro hall c hge hlt
          rcases Nat.eq_or_lt_of_le hge with rfl | hgt
          · exact hbit
          · exact hall c hgt hlt
        · exact fun hall c hge hlt => hall c (Nat.le_of_succ_le hge) hlt

end

/-- **The search** finds the first run of the whole words that looks free. -/
theorem findFirstFreeBlocks_first (m : Manager) {n : Nat} (hn : 1 ≤ n) :
    FirstClear (fun b => !decide (LooksFree m n b)) (m.maxBlocks / 32 * 32)
      (findFirstFreeBlocks m n) := by
  have hword : ∀ i, (let word := le32 m.memoryMap (4 * i)
      if word ≠ 0xFFFFFFFF then
        ((List.range 32).find? fun j => !word.testBit j && countFree m i j n n 0 0).map (i * 32 + ·)
      else none) = (if le32 m.memoryMap (4 * i) ≠ 0xFFFFFFFF then
          (List.range 32).find? fun j =>
            !(le32 m.memoryMap (4 * i)).testBit j && countFree m i j n n 0 0
        else none).map (i * 32 + ·) := by
    intro i
    simp only
    split <;> rfl
  unfold findFirstFreeBlocks
  rw [if_neg (by omega), funext hword]
  have hparts : ∀ i < m.maxBlocks / 32,
      FirstClear (fun k => !decide (LooksFree m n (i * 32 + k))) 32
        (if le32 m.memoryMap (4 * i) ≠ 0xFFFFFFFF then
          (List.range 32).find? fun j =>
            !(le32 m.memoryMap (4 * i)).testBit j && countFree m i j n n 0 0
        else none) := by
    intro i hi
    have hbit : ∀ j < 32, (le32 m.memoryMap (4 * i)).testBit j =
        bitAt m.memoryMap (probed (i * 32 + j) 0) := by
      intro j hj
      rw [← probed_bit hi hj, Nat.add_zero, u32_eq (by omega), if_neg (by omega),
        Nat.mod_eq_of_lt hj]
    -- a run is found at `j` when it looks free
    have htest : ∀ j < 32, (!(le32 m.memoryMap (4 * i)).testBit j && countFree m i j n n 0 0) =
        decide (LooksFree m n (i * 32 + j)) := by
      intro j hj
      have hcount := @countFree_iff m i j n hi hj n 0 (by omega) (Nat.zero_add n)
      rw [Bool.eq_iff_iff, Bool.and_eq_true, Bool.not_eq_true', decide_eq_true_iff, hcount, hbit j hj]
      constructor
      · exact fun h c hc => h.2 c (Nat.zero_le c) hc
      · exact fun h => ⟨h 0 (by omega), fun c _ hc => h c hc⟩
    by_cases hfull : le32 m.memoryMap (4 * i) = 0xFFFFFFFF
    · rw [if_neg (not_not_intro hfull)]
      refine .full fun j hj => ?_
      have hset : (le32 m.memoryMap (4 * i)).testBit j = true := by
        have h32 : (0xFFFFFFFF : Nat) = 2 ^ 32 - 1 := by decide
        rw [hfull, h32, Nat.testBit_two_pow_sub_one, decide_eq_true hj]
      show (!decide (LooksFree m n (i * 32 + j))) = true
      rw [← htest j hj, hset]
      rfl
    · rw [if_pos hfull, List.find?_congr fun j hj => htest j (List.mem_range.mp hj)]
      cases hfind : (List.range 32).find? fun j => decide (LooksFree m n (i * 32 + j)) with
      | none =>
        refine .full fun j hj => ?_
        simpa using List.find?_range_eq_none.mp hfind j hj
      | some j =>
        obtain ⟨hfree, hmem, hbefore⟩ := List.find?_range_eq_some.mp hfind
        refine .found (List.mem_range.mp hmem) ?_ fun c hc => ?_
        · simpa using hfree
        · exact hbefore c hc
  exact @firstClear_range (fun b => !decide (LooksFree m n b)) 32 _ _ hparts

/-! ## 3. The property -/

/-- **The search is sound, first-fit and complete.** -/
structure SearchRight (m : Manager) (n : Nat) : Prop where
  found : ∀ b, findFirstFreeBlocks m n = some b → Run m n b ∧ ∀ a < b, ¬ Run m n a
  none : findFirstFreeBlocks m n = none → ∀ b, ¬ Run m n b

/-- **When the first word and the next decide**: the first start in the whole words that is clear
ahead has its run below `max_blocks`, clear behind the next word as well; and when there is none, no
run begins behind the whole words. -/
structure WordsDecide (m : Manager) (n : Nat) : Prop where
  first : ∀ b < m.maxBlocks / 32 * 32, ClearAhead m n b → (∀ a < b, ¬ ClearAhead m n a) →
    b + n ≤ m.maxBlocks ∧
      ∀ k < n, (b / 32 + 2) * 32 ≤ b + k → bitAt m.memoryMap (b + k) = false
  last : (∀ b < m.maxBlocks / 32 * 32, ¬ ClearAhead m n b) →
    ∀ b, m.maxBlocks / 32 * 32 ≤ b → ¬ Run m n b

/-- A run that is clear ahead and behind that. -/
theorem ClearAhead.run {m : Manager} {n b : Nat} (h : ClearAhead m n b) (hend : b + n ≤ m.maxBlocks)
    (hfar : ∀ k < n, (b / 32 + 2) * 32 ≤ b + k → bitAt m.memoryMap (b + k) = false) : Run m n b := by
  refine ⟨hend, fun k hk => ?_⟩
  by_cases hnear : b + k < (b / 32 + 2) * 32
  · exact h.1 k hk hnear
  · exact hfar k hk (Nat.not_lt.mp hnear)

/-- **The search is right** when the first word and the next decide, and only then. -/
theorem search_right_iff (m : Manager) (n : Nat) (hmax : m.maxBlocks < 4294967296) (hn : 1 ≤ n) :
    SearchRight m n ↔ WordsDecide m n := by
  have hlooks : ∀ {b : Nat}, (!decide (LooksFree m n b)) = false ↔ ClearAhead m n b := by
    intro b
    rw [Bool.not_eq_false', decide_eq_true_iff, looksFree_iff]
  have hnot : ∀ {b : Nat}, (!decide (LooksFree m n b)) = true ↔ ¬ ClearAhead m n b := by
    intro b
    rw [Bool.not_eq_true', decide_eq_false_iff_not, looksFree_iff]
  have hfirst := findFirstFreeBlocks_first m hn
  generalize hr : findFirstFreeBlocks m n = r at hfirst
  cases hfirst with
  | full hset =>
    have hnone : ∀ b < m.maxBlocks / 32 * 32, ¬ ClearAhead m n b := fun b hb => hnot.mp (hset b hb)
    constructor
    · exact fun h => ⟨fun b hb hclear => absurd hclear (hnone b hb), fun _ b _ => h.none hr b⟩
    · refine fun h => ⟨fun b hb => ?_, fun _ b hrun => ?_⟩
      · rw [hr] at hb
        cases hb
      · by_cases hb : b < m.maxBlocks / 32 * 32
        · exact hnone b hb (hrun.clearAhead hmax)
        · exact h.last hnone b (Nat.not_lt.mp hb) hrun
  | @found b hlt hclear hset =>
    have hahead : ClearAhead m n b := hlooks.mp hclear
    have hbefore : ∀ a < b, ¬ ClearAhead m n a := fun a ha => hnot.mp (hset a ha)
    constructor
    · intro h
      refine ⟨fun c _ hc hc' => ?_, fun hall => absurd hahead (hall b hlt)⟩
      obtain rfl : c = b := by
        rcases Nat.lt_trichotomy c b with hcb | hcb | hcb
        · exact absurd hc (hbefore c hcb)
        · exact hcb
        · exact absurd hahead (hc' b hcb)
      obtain ⟨hend, hrun⟩ := (h.found c hr).1
      exact ⟨hend, fun k hk _ => hrun k hk⟩
    · refine fun h => ⟨fun c hc => ?_, fun hno => ?_⟩
      · rw [hr] at hc
        obtain rfl := Option.some.inj hc
        obtain ⟨hend, hfar⟩ := h.first b hlt hahead hbefore
        exact ⟨hahead.run hend hfar, fun a ha hrun => hbefore a ha (hrun.clearAhead hmax)⟩
      · rw [hr] at hno
        cases hno

/-- Three blocks of an empty bitmap. -/
theorem search_right_three : SearchRight ⟨fun _ => 0, 64, 0⟩ 3 := by
  have hclear : ∀ i, bitAt (fun _ => 0) i = false := fun i => Nat.zero_testBit _
  have hahead : ClearAhead ⟨fun _ => 0, 64, 0⟩ 3 0 :=
    ⟨fun k _ _ => hclear _, fun k _ _ => hclear _⟩
  refine (search_right_iff ⟨fun _ => 0, 64, 0⟩ 3 (by decide) (by decide)).mpr
    ⟨fun b _ _ hbefore => ?_, fun hnone => absurd hahead (hnone 0 (by decide))⟩
  rcases Nat.eq_zero_or_pos b with rfl | hpos
  · exact ⟨by decide, fun k _ _ => hclear _⟩
  · exact absurd hahead (hbefore 0 hpos)

/-- **A run over three words**: 65 blocks are found although the last of them is in use. -/
theorem search_three_words : ¬ ∀ (m : Manager) (n : Nat), m.maxBlocks < 4294967296 → 1 ≤ n →
    SearchRight m n := by
  intro hall
  have hright := hall ⟨fun p => if p = 8 then 1 else 0, 128, 1⟩ 65 (by decide) (by decide)
  have hfound : findFirstFreeBlocks ⟨fun p => if p = 8 then 1 else 0, 128, 1⟩ 65 = some 0 := by
    decide +kernel
  have hused : bitAt (fun p => if p = 8 then 1 else 0) (0 + 64) = true := by decide
  have hclear := (hright.found 0 hfound).1.2 64 (by decide)
  rw [hused] at hclear
  cases hclear

end AmateurOs.Memory
