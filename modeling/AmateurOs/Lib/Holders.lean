/-
# Counting the holders of a resource, and the set bits of a bitmap

`held : Nat → Option α` says which resource each of the slots `0 … n - 1` holds, if any;
`holders n held a` is the set of the slots that hold `a`.  Taking a free slot adds one holder of
one resource, releasing a slot removes one: these are the two steps by which a reference count
is compared with the number of references it stands for.
-/
import Mathlib.Data.Finset.Card
import Mathlib.Data.Finset.Range
import Mathlib.Data.Finset.Image

namespace AmateurOs.Lib

variable {α : Type} {n : Nat} {held : Nat → Option α} {a b : α} {slot : Nat}

/-! ## 1. Taken slots -/

/-- The slots that hold something. -/
def takenSlots (n : Nat) (held : Nat → Option α) : Finset Nat :=
  (Finset.range n).filter fun slot => (held slot).isSome

@[simp] theorem mem_takenSlots : slot ∈ takenSlots n held ↔ slot < n ∧ (held slot).isSome := by
  simp [takenSlots]

/-- When fewer slots are taken than there are, one is free. -/
theorem exists_free (h : (takenSlots n held).card < n) : ∃ d < n, held d = none := by
  by_contra hall
  have hfull : takenSlots n held = Finset.range n := by
    ext d
    rw [mem_takenSlots, Finset.mem_range]
    refine ⟨And.left, fun hd => ⟨hd, ?_⟩⟩
    rw [Option.isSome_iff_ne_none]
    exact fun hnone => hall ⟨d, hd, hnone⟩
  rw [hfull, Finset.card_range] at h
  exact Nat.lt_irrefl n h

/-- Resources kept in cells of their own are at most as many as the taken slots. -/
theorem exists_empty_cell {m : Nat} {cell : Nat → α} {used : Nat → Prop}
    (hinj : ∀ i < m, ∀ j < m, used i → used j → cell i = cell j → i = j)
    (hheld : ∀ i < m, used i → ∃ d < n, held d = some (cell i))
    (h : (takenSlots n held).card < m) : ∃ i < m, ¬ used i := by
  by_contra hall
  have hused : ∀ i < m, used i := fun i hi => by
    by_contra hnot
    exact hall ⟨i, hi, hnot⟩
  -- Every cell is the cell of some taken slot.
  have hpick : ∀ i < m, ∃ d ∈ takenSlots n held, held d = some (cell i) := by
    intro i hi
    obtain ⟨d, hd, heq⟩ := hheld i hi (hused i hi)
    exact ⟨d, mem_takenSlots.mpr ⟨hd, by rw [heq]; rfl⟩, heq⟩
  choose! pick hmem heq using hpick
  have hle := Finset.card_le_card_of_injOn pick
    (fun i hi => hmem i (Finset.mem_range.mp hi)) (s := Finset.range m) (t := takenSlots n held)
    (fun i hi j hj hij => by
      have hi := Finset.mem_range.mp hi
      have hj := Finset.mem_range.mp hj
      have hcell : some (cell i) = some (cell j) := by
        rw [← heq i hi, ← heq j hj, hij]
      exact hinj i hi j hj (hused i hi) (hused j hj) (Option.some.inj hcell))
  rw [Finset.card_range] at hle
  omega

/-! ## 2. The holders of one resource -/

variable [DecidableEq α]

/-- The slots that hold `a`. -/
def holders (n : Nat) (held : Nat → Option α) (a : α) : Finset Nat :=
  (Finset.range n).filter fun slot => held slot = some a

@[simp] theorem mem_holders : slot ∈ holders n held a ↔ slot < n ∧ held slot = some a := by
  simp [holders]

/-- **Taking a slot.** -/
theorem card_holders_take (hslot : slot < n) (hfree : held slot = none) :
    (holders n (Function.update held slot (some a)) b).card
      = (holders n held b).card + (if a = b then 1 else 0) := by
  by_cases hab : a = b
  · subst hab
    have hnew : holders n (Function.update held slot (some a)) a
        = insert slot (holders n held a) := by
      ext d
      rw [mem_holders, Finset.mem_insert, mem_holders]
      by_cases hd : d = slot
      · subst hd
        simp [hslot]
      · simp [hd]
    rw [hnew, Finset.card_insert_of_notMem (by simp [hfree]), if_pos rfl]
  · have hsame : holders n (Function.update held slot (some a)) b = holders n held b := by
      ext d
      rw [mem_holders, mem_holders]
      by_cases hd : d = slot
      · subst hd
        simp [hab, hfree]
      · simp [hd]
    rw [hsame, if_neg hab, Nat.add_zero]

/-- **Releasing a slot.** -/
theorem card_holders_release (hslot : slot < n) (hheld : held slot = some a) :
    (holders n (Function.update held slot none) b).card + (if a = b then 1 else 0)
      = (holders n held b).card := by
  have htake : (holders n (Function.update (Function.update held slot none) slot (some a)) b).card
      = (holders n (Function.update held slot none) b).card + if a = b then 1 else 0 :=
    card_holders_take hslot (Function.update_self slot none held)
  rw [Function.update_idem, ← hheld, Function.update_eq_self] at htake
  exact htake.symm

/-- A resource has a holder when its count is not zero. -/
theorem card_holders_pos : 0 < (holders n held a).card ↔ ∃ d < n, held d = some a := by
  rw [Finset.card_pos]
  constructor
  · rintro ⟨d, hd⟩
    exact ⟨d, mem_holders.mp hd⟩
  · rintro ⟨d, hd⟩
    exact ⟨d, mem_holders.mpr hd⟩

/-- No resource has more holders than there are taken slots. -/
theorem card_holders_le : (holders n held a).card ≤ (takenSlots n held).card := by
  refine Finset.card_le_card fun d hd => ?_
  obtain ⟨hlt, heq⟩ := mem_holders.mp hd
  exact mem_takenSlots.mpr ⟨hlt, by rw [heq]; rfl⟩

/-! ## 3. Set bits -/

/-- The number of set bits below `n`. -/
def countSet (n : Nat) (bit : Nat → Bool) : Nat :=
  ((Finset.range n).filter fun i => bit i = true).card

variable {bit bit' : Nat → Bool}

/-- **Setting a clear bit.** -/
theorem countSet_set {i : Nat} (hi : i < n) (hclear : bit i = false)
    (h : ∀ j, bit' j = (bit j || decide (j = i))) : countSet n bit' = countSet n bit + 1 := by
  have hinsert : ((Finset.range n).filter fun j => bit' j = true)
      = insert i ((Finset.range n).filter fun j => bit j = true) := by
    ext j
    rw [Finset.mem_insert, Finset.mem_filter, Finset.mem_filter, h, Bool.or_eq_true,
      decide_eq_true_iff]
    constructor
    · rintro ⟨hj, hbit | heq⟩
      · exact Or.inr ⟨hj, hbit⟩
      · exact Or.inl heq
    · rintro (rfl | ⟨hj, hbit⟩)
      · exact ⟨Finset.mem_range.mpr hi, Or.inr rfl⟩
      · exact ⟨hj, Or.inl hbit⟩
  have hnew : i ∉ (Finset.range n).filter fun j => bit j = true := by
    rw [Finset.mem_filter, hclear]
    exact fun hand => Bool.false_ne_true hand.2
  unfold countSet
  rw [hinsert, Finset.card_insert_of_notMem hnew]

/-- **Clearing a set bit.** -/
theorem countSet_clear {i : Nat} (hi : i < n) (hset : bit i = true)
    (h : ∀ j, bit' j = (bit j && decide (j ≠ i))) : countSet n bit' + 1 = countSet n bit := by
  refine (countSet_set hi ?_ fun j => ?_).symm
  · rw [h, decide_eq_false (not_not_intro rfl), Bool.and_false]
  · rw [h]
    by_cases hj : j = i
    · rw [decide_eq_true hj, Bool.or_true, hj, hset]
    · rw [decide_eq_false hj, Bool.or_false, decide_eq_true hj, Bool.and_true]

theorem countSet_le : countSet n bit ≤ n := by
  have hle := Finset.card_filter_le (Finset.range n) fun i => bit i = true
  rwa [Finset.card_range] at hle

/-- More bits, a larger count. -/
theorem countSet_mono (h : ∀ i, bit i = true → bit' i = true) : countSet n bit ≤ countSet n bit' :=
  Finset.card_le_card (Finset.monotone_filter_right _ fun i _ => h i)

/-- All bits are set when their number is all. -/
theorem countSet_eq_iff : countSet n bit = n ↔ ∀ i < n, bit i = true := by
  have hcard : countSet n bit = (Finset.range n).card ↔ ∀ i ∈ Finset.range n, bit i = true :=
    Finset.card_filter_eq_iff
  rw [Finset.card_range] at hcard
  exact hcard.trans ⟨fun h i hi => h i (Finset.mem_range.mpr hi),
    fun h i hi => h i (Finset.mem_range.mp hi)⟩

/-- Two clear bits leave the count two below the number of bits. -/
theorem countSet_two_clear {i j : Nat} (hi : i < n) (hj : j < n) (hne : i ≠ j)
    (hclear : bit i = false) (hclear' : bit j = false) : countSet n bit + 2 ≤ n := by
  have hone : countSet n (fun k => bit k || decide (k = i)) = countSet n bit + 1 :=
    countSet_set hi hclear fun _ => rfl
  have htwo : countSet n (fun k => (bit k || decide (k = i)) || decide (k = j))
      = countSet n (fun k => bit k || decide (k = i)) + 1 := by
    refine countSet_set hj ?_ fun _ => rfl
    rw [hclear', decide_eq_false hne.symm, Bool.or_false]
  have hle : countSet n (fun k => (bit k || decide (k = i)) || decide (k = j)) ≤ n := countSet_le
  omega

end AmateurOs.Lib
