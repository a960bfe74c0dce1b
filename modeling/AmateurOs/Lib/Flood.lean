/-
# Flood fill

A fill that paints a vertex and goes on to the vertices around it, each call to its end before the
next one.  Nothing is remembered but the paint.

`flood_paints` is the rule.  It is about a finite set `C` of vertices and a relation `Rel P s`, that
in the state `s` exactly the vertices `P` of `C` have been painted: a call ends, and what it has
painted is closed under going on (`Spread`).  Where every vertex of `C` can be gone to, that is all
of `C` (`flood_all`).
-/
import Mathlib.Data.Finset.Card
import Mathlib.Logic.Relation

namespace AmateurOs.Lib

universe u v

variable {V : Type u} {σ : Type v}

/-- One call, with the depth of the calls it makes bounded by the fuel. -/
def flood (wet : σ → V → Bool) (paint : V → σ → σ) (around : V → List V) :
    Nat → V → σ → Option σ
  | 0, _, _ => none
  | fuel + 1, v, s =>
    if wet s v then
      (around v).foldlM (fun s w => flood wet paint around fuel w s) (paint v s)
    else some s

variable [DecidableEq V]

/-- **A set `C` to be painted.**  `D` holds the vertices that calls are made for: on them the test of
a call says whether the vertex is in `C` and not yet painted. -/
structure Floods (wet : σ → V → Bool) (paint : V → σ → σ) (around : V → List V) (C : Finset V)
    (D : Set V) (Rel : Finset V → σ → Prop) : Prop where
  wet_iff : ∀ {P s v}, Rel P s → P ⊆ C → v ∈ D → (wet s v = true ↔ v ∈ C ∧ v ∉ P)
  paint : ∀ {P s v}, Rel P s → P ⊆ C → v ∈ C → Rel (insert v P) (paint v s)
  around : ∀ {v w}, v ∈ C → w ∈ around v → w ∈ D

/-- **From `P` to `Q`**: what has been painted is closed under going on inside of `C`. -/
structure Spread (around : V → List V) (C P Q : Finset V) : Prop where
  grows : P ⊆ Q
  inside : Q ⊆ C
  closed : ∀ v ∈ Q, v ∉ P → ∀ w ∈ around v, w ∈ C → w ∈ Q

section

variable {wet : σ → V → Bool} {paint : V → σ → σ} {around : V → List V} {C P Q R : Finset V}
  {D : Set V} {Rel : Finset V → σ → Prop}

theorem Spread.refl (h : P ⊆ C) : Spread around C P P :=
  ⟨Finset.Subset.refl P, h, fun _ hv hnot => absurd hv hnot⟩

theorem Spread.trans (h : Spread around C P Q) (h' : Spread around C Q R) :
    Spread around C P R := by
  refine ⟨h.grows.trans h'.grows, h'.inside, fun v hv hnot w hw hwC => ?_⟩
  by_cases hvQ : v ∈ Q
  · exact h'.grows (h.closed v hvQ hnot w hw hwC)
  · exact h'.closed v hv hvQ w hw hwC

/-- The calls for the vertices of a list, one after the other. -/
theorem Floods.list {fuel : Nat} (h : Floods wet paint around C D Rel)
    (hcall : ∀ {P s v}, Rel P s → P ⊆ C → v ∈ D → (C \ P).card < fuel →
      ∃ Q s', flood wet paint around fuel v s = some s' ∧ Rel Q s' ∧ Spread around C P Q ∧
        (v ∈ C → v ∈ Q)) :
    ∀ (ws : List V) {P : Finset V} {s : σ}, Rel P s → P ⊆ C → (∀ w ∈ ws, w ∈ D) →
      (C \ P).card < fuel →
      ∃ Q s', ws.foldlM (fun s w => flood wet paint around fuel w s) s = some s' ∧ Rel Q s' ∧
        Spread around C P Q ∧ ∀ w ∈ ws, w ∈ C → w ∈ Q
  | [], P, s, hs, hP, _, _ => ⟨P, s, rfl, hs, Spread.refl hP, fun _ hw => absurd hw List.not_mem_nil⟩
  | w :: ws, P, s, hs, hP, hD, hfuel => by
    obtain ⟨Q, s₁, hfirst, hs₁, hspread, hw⟩ := hcall hs hP (hD w List.mem_cons_self) hfuel
    have hcard : (C \ Q).card < fuel := Nat.lt_of_le_of_lt
      (Finset.card_le_card (Finset.sdiff_subset_sdiff (Finset.Subset.refl C) hspread.grows)) hfuel
    obtain ⟨R, s₂, hrest, hs₂, hspread', hws⟩ := Floods.list h hcall ws hs₁ hspread.inside
      (fun w' hw' => hD w' (List.mem_cons_of_mem w hw')) hcard
    refine ⟨R, s₂, ?_, hs₂, hspread.trans hspread', fun w' hw' hC => ?_⟩
    · rw [List.foldlM_cons, hfirst]
      exact hrest
    · rcases List.mem_cons.mp hw' with rfl | hw'
      · exact hspread'.grows (hw hC)
      · exact hws w' hw' hC

/-- **A call ends.**  It has painted its vertex, and with every vertex the ones around it. -/
theorem flood_paints (h : Floods wet paint around C D Rel) (fuel : Nat) :
    ∀ {P s v}, Rel P s → P ⊆ C → v ∈ D → (C \ P).card < fuel →
      ∃ Q s', flood wet paint around fuel v s = some s' ∧ Rel Q s' ∧ Spread around C P Q ∧
        (v ∈ C → v ∈ Q) := by
  induction fuel with
  | zero => exact fun _ _ _ hfuel => absurd hfuel (Nat.not_lt_zero _)
  | succ fuel ih =>
    intro P s v hs hP hv hfuel
    unfold flood
    by_cases hwet : wet s v = true
    · obtain ⟨hvC, hvP⟩ := (h.wet_iff hs hP hv).mp hwet
      have hsub : insert v P ⊆ C := Finset.insert_subset hvC hP
      have hcard : (C \ insert v P).card < fuel := by
        have hlt : (C \ insert v P).card < (C \ P).card := by
          refine Finset.card_lt_card ⟨Finset.sdiff_subset_sdiff (Finset.Subset.refl C)
            (Finset.subset_insert v P), fun hall => ?_⟩
          have hgone := hall (Finset.mem_sdiff.mpr ⟨hvC, hvP⟩)
          exact (Finset.mem_sdiff.mp hgone).2 (Finset.mem_insert_self v P)
        omega
      obtain ⟨Q, s', hrun, hs', hspread, hall⟩ := Floods.list h ih (around v)
        (h.paint hs hP hvC) hsub (fun w hw => h.around hvC hw) hcard
      rw [if_pos hwet]
      refine ⟨Q, s', hrun, hs', ⟨(Finset.subset_insert v P).trans hspread.grows, hspread.inside,
        fun u hu hnot w hw hwC => ?_⟩, fun _ => hspread.grows (Finset.mem_insert_self v P)⟩
      rcases eq_or_ne u v with rfl | hne
      · exact hall w hw hwC
      · refine hspread.closed u hu (fun hin => ?_) w hw hwC
        exact (Finset.mem_insert.mp hin).elim hne hnot
    · rw [if_neg hwet]
      refine ⟨P, s, rfl, hs, Spread.refl hP, fun hvC => ?_⟩
      by_contra hvP
      exact hwet ((h.wet_iff hs hP hv).mpr ⟨hvC, hvP⟩)

/-- **All of `C` is painted** where every vertex of it can be gone to from the first one. -/
theorem flood_all (h : Floods wet paint around C D Rel) {s : σ} {v : V} (hs : Rel ∅ s) (hv : v ∈ D)
    (hreach : ∀ w ∈ C, v ∈ C ∧ Relation.ReflTransGen (fun a b => b ∈ around a ∧ b ∈ C) v w)
    {fuel : Nat} (hfuel : C.card < fuel) :
    ∃ s', flood wet paint around fuel v s = some s' ∧ Rel C s' := by
  obtain ⟨Q, s', hrun, hs', hspread, hfirst⟩ := flood_paints h fuel hs (Finset.empty_subset C) hv
    (by rwa [Finset.sdiff_empty])
  have hall : C ⊆ Q := fun w hw => by
    obtain ⟨hvC, hpath⟩ := hreach w hw
    clear hw
    induction hpath with
    | refl => exact hfirst hvC
    | tail _ hstep ih => exact hspread.closed _ ih (Finset.notMem_empty _) _ hstep.1 hstep.2
  obtain rfl := Finset.Subset.antisymm hspread.inside hall
  exact ⟨s', hrun, hs'⟩

end

end AmateurOs.Lib
