/-
# Ledgers: who holds what, and what is marked as taken

Two records of the same fact.  A ledger says which resources each holder holds, and which
resources are marked as taken; it is sound when no resource has two holders and whatever is held
is marked.  The ways to change a ledger keep it sound: resources are marked without a holder
(`reserve`), a holder is assigned what is marked and held by nobody else (`assign`), is given a
resource that was not marked (`grant`), or gives up what it holds (`release`).
-/
import Mathlib.Data.Set.Lattice
import Mathlib.Logic.Function.Basic

namespace AmateurOs.Lib

universe u v

/-- Holders with the resources they hold, and the resources marked as taken. -/
@[ext]
structure Ledger (ι : Type u) (β : Type v) where
  holds : ι → Set β
  marked : Set β

namespace Ledger

variable {ι : Type u} {β : Type v}

/-- **Soundness**: one holder a resource, and nothing held that is not marked. -/
structure Sound (g : Ledger ι β) : Prop where
  disjoint : ∀ i j, i ≠ j → ∀ b ∈ g.holds i, b ∉ g.holds j
  marked : ∀ i, g.holds i ⊆ g.marked

/-- Resources marked without a holder. -/
def reserve (g : Ledger ι β) (taken : Set β) : Ledger ι β :=
  { g with marked := g.marked ∪ taken }

theorem Sound.reserve {g : Ledger ι β} (h : g.Sound) (taken : Set β) : (g.reserve taken).Sound :=
  ⟨h.disjoint, fun i _ hb => Or.inl (h.marked i hb)⟩

section

variable [DecidableEq ι] {g : Ledger ι β} {i : ι} {b : β}

/-- The holder `i` holds `taken`, and nothing else. -/
def assign (g : Ledger ι β) (i : ι) (taken : Set β) : Ledger ι β :=
  { g with holds := Function.update g.holds i taken }

/-- The holder `i` is given `b` in place of what it held, and `b` is marked. -/
def grant (g : Ledger ι β) (i : ι) (b : β) : Ledger ι β := (g.reserve {b}).assign i {b}

/-- The holder `i` gives up what it holds. -/
def release (g : Ledger ι β) (i : ι) : Ledger ι β where
  holds := Function.update g.holds i ∅
  marked := g.marked \ g.holds i

theorem mem_assign {taken : Set β} {j : ι} {c : β} :
    c ∈ (g.assign i taken).holds j ↔ (j = i ∧ c ∈ taken) ∨ (j ≠ i ∧ c ∈ g.holds j) := by
  show c ∈ Function.update g.holds i taken j ↔ _
  by_cases hj : j = i
  · subst hj
    simp
  · simp [hj]

theorem mem_grant {j : ι} {c : β} :
    c ∈ (g.grant i b).holds j ↔ (j = i ∧ c = b) ∨ (j ≠ i ∧ c ∈ g.holds j) := mem_assign

theorem mem_release {j : ι} {c : β} :
    c ∈ (g.release i).holds j ↔ j ≠ i ∧ c ∈ g.holds j := by
  show c ∈ Function.update g.holds i ∅ j ↔ _
  by_cases hj : j = i
  · subst hj
    simp
  · simp [hj]

/-- **What is marked and held by nobody else** can be assigned. -/
theorem Sound.assign (h : g.Sound) {taken : Set β} (hmarked : taken ⊆ g.marked)
    (hfree : ∀ j, j ≠ i → ∀ c ∈ taken, c ∉ g.holds j) : (g.assign i taken).Sound := by
  constructor
  · intro j k hne c hj hk
    rcases mem_assign.mp hj with ⟨rfl, hin⟩ | ⟨hji, hold⟩
    · rcases mem_assign.mp hk with ⟨rfl, -⟩ | ⟨hki, hold'⟩
      · exact hne rfl
      · exact hfree k hki c hin hold'
    · rcases mem_assign.mp hk with ⟨rfl, hin⟩ | ⟨-, hold'⟩
      · exact hfree j hji c hin hold
      · exact h.disjoint j k hne c hold hold'
  · intro j c hj
    rcases mem_assign.mp hj with ⟨-, hin⟩ | ⟨-, hold⟩
    · exact hmarked hin
    · exact h.marked j hold

/-- **What is not marked can be given away.** -/
theorem Sound.grant (h : g.Sound) (hb : b ∉ g.marked) : (g.grant i b).Sound :=
  (h.reserve {b}).assign (fun _ hc => Or.inr hc) fun j _ c hc hj =>
    hb (Set.mem_singleton_iff.mp hc ▸ h.marked j hj)

/-- **A holder can give up what it holds.** -/
theorem Sound.release (h : g.Sound) : (g.release i).Sound := by
  constructor
  · intro j k hne c hj hk
    exact h.disjoint j k hne c (mem_release.mp hj).2 (mem_release.mp hk).2
  · intro j c hj
    obtain ⟨hne, hmem⟩ := mem_release.mp hj
    exact ⟨h.marked j hmem, fun hi => h.disjoint j i hne c hmem hi⟩

end

end Ledger

end AmateurOs.Lib
