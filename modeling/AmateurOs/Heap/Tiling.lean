/-
# The heap as a tiling, and what each operation does to it

Away from its defects the list of headers is a **tiling**: the nodes follow each other without
gaps, each header pointing at the next, from `malloc_start` to the end of the last mapped page.
This module states that abstraction (`Tiles m a bs`: the list of blocks `bs` is laid out in `m`
from `a` on) and proves what `malloc_split`, the growing loop, `merge_free_blocks`, the scan and
the `free` flag do to it:

* the abstract operations are list operations on blocks (`mergeBlocks`, splitting one element);
* `used a bs` lists the ranges handed out, in address order.  They are pairwise disjoint, lie in
  the tiled range and contain no header (`used_apart`, `used_inside`, `used_header`), whatever
  the tiling is, so safety is only ever a question of keeping a tiling.
-/
import AmateurOs.Heap.Malloc

namespace AmateurOs.Malloc

open AmateurOs.Lib

/-! ## 1. Reading a header back -/

section Headers

variable (m : Bytes) (a v : Nat)

@[simp] theorem nodeSize_setSize : nodeSize (setSize m a v) a = u32 v := le32_put32 m a v

@[simp] theorem nodeFree_setFree : nodeFree (setFree m a v) a = u32 v := le32_put32 m (a + 4) v

@[simp] theorem nodeNext_setNext : nodeNext (setNext m a v) a = u32 v := le32_put32 m (a + 8) v

@[simp] theorem nodeSize_setFree : nodeSize (setFree m a v) a = nodeSize m a :=
  le32_put32_ne (by omega)

@[simp] theorem nodeSize_setNext : nodeSize (setNext m a v) a = nodeSize m a :=
  le32_put32_ne (by omega)

@[simp] theorem nodeFree_setSize : nodeFree (setSize m a v) a = nodeFree m a :=
  le32_put32_ne (by omega)

@[simp] theorem nodeFree_setNext : nodeFree (setNext m a v) a = nodeFree m a :=
  le32_put32_ne (by omega)

@[simp] theorem nodeNext_setSize : nodeNext (setSize m a v) a = nodeNext m a :=
  le32_put32_ne (by omega)

@[simp] theorem nodeNext_setFree : nodeNext (setFree m a v) a = nodeNext m a :=
  le32_put32_ne (by omega)

end Headers

/-- `m'` and `m` agree from `a` up to `e`. -/
def Same (m m' : Bytes) (a e : Nat) : Prop := ∀ p, a ≤ p → p < e → m' p = m p

section Same

variable {m m' m'' : Bytes} {a e a' e' n v : Nat}

theorem Same.refl : Same m m a e := fun _ _ _ => rfl

theorem Same.trans (h : Same m m' a e) (h' : Same m' m'' a e) : Same m m'' a e :=
  fun p hp hq => (h' p hp hq).trans (h p hp hq)

theorem Same.mono (h : Same m m' a e) (ha : a ≤ a') (he : e' ≤ e) : Same m m' a' e' :=
  fun p hp hq => h p (by omega) (by omega)

/-- A header outside the range can be written freely. -/
theorem same_setSize (h : n + headerSize ≤ a ∨ e ≤ n) : Same m (setSize m n v) a e :=
  fun p hp hq => put32_out (by unfold headerSize at h; omega)

theorem same_setFree (h : n + headerSize ≤ a ∨ e ≤ n) : Same m (setFree m n v) a e :=
  fun p hp hq => put32_out (by unfold headerSize at h; omega)

theorem same_setNext (h : n + headerSize ≤ a ∨ e ≤ n) : Same m (setNext m n v) a e :=
  fun p hp hq => put32_out (by unfold headerSize at h; omega)

/-- What a header says is determined by its twelve bytes. -/
theorem Same.nodeSize (h : Same m m' n (n + headerSize)) : nodeSize m' n = nodeSize m n :=
  le32_congr fun k hk => h _ (by omega) (by unfold headerSize; omega)

theorem Same.nodeFree (h : Same m m' n (n + headerSize)) : nodeFree m' n = nodeFree m n :=
  le32_congr fun k hk => h _ (by omega) (by unfold headerSize; omega)

theorem Same.nodeNext (h : Same m m' n (n + headerSize)) : nodeNext m' n = nodeNext m n :=
  le32_congr fun k hk => h _ (by omega) (by unfold headerSize; omega)

end Same

/-! ## 2. Tilings -/

/-- A block of memory: the bytes after the header, and whether it is free. -/
structure Block where
  size : Nat
  free : Bool

/-- The bytes a list of blocks takes, headers included. -/
def span : List Block → Nat
  | [] => 0
  | b :: bs => headerSize + b.size + span bs

@[simp] theorem span_nil : span [] = 0 := rfl

@[simp] theorem span_cons (b : Block) (bs : List Block) :
    span (b :: bs) = headerSize + b.size + span bs := rfl

@[simp] theorem span_append (xs ys : List Block) : span (xs ++ ys) = span xs + span ys := by
  induction xs with
  | nil => simp
  | cons b xs ih => simp only [List.cons_append, span_cons, ih, Nat.add_assoc]

/-- The header at `a` describes the block `b` and points at `next`. -/
structure NodeAt (m : Bytes) (a : Nat) (b : Block) (next : Nat) : Prop where
  size : nodeSize m a = b.size
  free : nodeFree m a ≠ 0 ↔ b.free = true
  next : nodeNext m a = next

theorem NodeAt.frame {m m' : Bytes} {a next : Nat} {b : Block} (h : NodeAt m a b next)
    (hs : Same m m' a (a + headerSize)) : NodeAt m' a b next :=
  ⟨hs.nodeSize.trans h.size, by rw [hs.nodeFree]; exact h.free, hs.nodeNext.trans h.next⟩

/-- The blocks are laid out from `a` on, each header pointing at the next one. -/
def Seg (m : Bytes) : Nat → List Block → Prop
  | _, [] => True
  | a, b :: bs =>
    NodeAt m a b (a + headerSize + b.size) ∧ Seg m (a + headerSize + b.size) bs

/-- **A tiling**: the blocks are laid out from `a` on and the last header ends the list. -/
def Tiles (m : Bytes) : Nat → List Block → Prop
  | _, [] => True
  | a, b :: bs =>
    NodeAt m a b (if bs.isEmpty then 0 else a + headerSize + b.size) ∧
      Tiles m (a + headerSize + b.size) bs

theorem Seg.frame {m m' : Bytes} {bs : List Block} : ∀ {a : Nat}, Seg m a bs →
    Same m m' a (a + span bs) → Seg m' a bs := by
  induction bs with
  | nil => intro a _ _; trivial
  | cons b bs ih =>
    intro a h hs
    rw [span_cons] at hs
    exact ⟨h.1.frame (hs.mono (by omega) (by omega)), ih h.2 (hs.mono (by omega) (by omega))⟩

theorem Tiles.frame {m m' : Bytes} {bs : List Block} : ∀ {a : Nat}, Tiles m a bs →
    Same m m' a (a + span bs) → Tiles m' a bs := by
  induction bs with
  | nil => intro a _ _; trivial
  | cons b bs ih =>
    intro a h hs
    rw [span_cons] at hs
    exact ⟨h.1.frame (hs.mono (by omega) (by omega)), ih h.2 (hs.mono (by omega) (by omega))⟩

/-- A tiling splits at every node: the part before it, and a tiling from the node on. -/
theorem tiles_append {m : Bytes} {ys : List Block} (hy : ys ≠ []) (xs : List Block) :
    ∀ {a : Nat}, Tiles m a (xs ++ ys) ↔ Seg m a xs ∧ Tiles m (a + span xs) ys := by
  induction xs with
  | nil => intro a; simp [Seg]
  | cons b xs ih =>
    intro a
    have hne : (xs ++ ys).isEmpty = false := by
      cases xs with
      | nil => simpa using hy
      | cons => rfl
    simp only [List.cons_append, Tiles, Seg, hne, ih, span_cons, Bool.false_eq_true, if_false,
      and_assoc, Nat.add_assoc]

/-- A node of a tiling, with what surrounds it. -/
theorem tiles_node {m : Bytes} {a : Nat} {xs ys : List Block} {b : Block}
    (h : Tiles m a (xs ++ b :: ys)) :
    NodeAt m (a + span xs) b (if ys.isEmpty then 0 else a + span xs + headerSize + b.size) :=
  ((tiles_append (by simp) xs).mp h).2.1

/-! ## 3. The ranges handed out -/

/-- The ranges of the used blocks, in address order: pointer and size. -/
def used : Nat → List Block → List (Nat × Nat)
  | _, [] => []
  | a, b :: bs =>
    (if b.free then [] else [(a + headerSize, b.size)]) ++ used (a + headerSize + b.size) bs

@[simp] theorem used_append (xs ys : List Block) :
    ∀ a, used a (xs ++ ys) = used a xs ++ used (a + span xs) ys := by
  induction xs with
  | nil => intro a; rfl
  | cons b xs ih =>
    intro a
    simp only [List.cons_append, used, ih, span_cons, List.append_assoc, Nat.add_assoc]

/-- Every range handed out lies in the tiled memory, after its header. -/
theorem used_inside {bs : List Block} : ∀ {a : Nat} {r : Nat × Nat}, r ∈ used a bs →
    a + headerSize ≤ r.1 ∧ r.1 + r.2 ≤ a + span bs := by
  induction bs with
  | nil => intro a r h; cases h
  | cons b bs ih =>
    intro a r h
    rw [span_cons]
    rcases List.mem_append.mp h with h | h
    · split at h
      · cases h
      · obtain rfl := List.mem_singleton.mp h
        exact ⟨Nat.le_refl _, by simp only; omega⟩
    · obtain ⟨h1, h2⟩ := ih h
      exact ⟨by omega, by omega⟩

/-- **The ranges handed out by a tiling are pairwise disjoint.** -/
theorem used_apart {bs : List Block} : ∀ {a : Nat}, (used a bs).Pairwise Apart := by
  induction bs with
  | nil => intro a; exact List.Pairwise.nil
  | cons b bs ih =>
    intro a
    refine List.pairwise_append.mpr ⟨?_, ih, ?_⟩
    · split
      · exact List.Pairwise.nil
      · exact List.pairwise_singleton _ _
    · intro r hr s hs
      have hsin := (used_inside hs).1
      split at hr
      · cases hr
      · obtain rfl := List.mem_singleton.mp hr
        exact Or.inl (by simp only; omega)

/-- The header addresses that a list starting at `a` goes through. -/
inductive Listed (m : Bytes) (a : Nat) : Nat → Prop
  | head : Listed m a a
  | next {n : Nat} : Listed m a n → nodeNext m n ≠ 0 → Listed m a (nodeNext m n)

/-- The headers of a tiling are where its blocks are. -/
theorem Listed.block {m : Bytes} {a n : Nat} {bs : List Block} (ht : Tiles m a bs)
    (hne : bs ≠ []) (h : Listed m a n) : ∃ xs b ys, bs = xs ++ b :: ys ∧ n = a + span xs := by
  induction h with
  | head =>
    obtain ⟨b, bs, rfl⟩ := List.exists_cons_of_ne_nil hne
    exact ⟨[], b, bs, rfl, rfl⟩
  | next hn hz ih =>
    obtain ⟨xs, b, ys, rfl, rfl⟩ := ih
    have hnode := tiles_node ht
    rw [hnode.next] at hz ⊢
    cases ys with
    | nil => exact absurd rfl hz
    | cons c ys =>
      refine ⟨xs ++ [b], c, ys, by simp, ?_⟩
      simp only [List.isEmpty_cons, Bool.false_eq_true, if_false, span_append, span_cons,
        span_nil, Nat.add_zero]
      omega

/-- **No range handed out contains a header.** -/
theorem used_header {m : Bytes} {a n : Nat} {bs : List Block} {r : Nat × Nat}
    (ht : Tiles m a bs) (hn : Listed m a n) (hr : r ∈ used a bs) :
    r.1 + r.2 ≤ n ∨ n + headerSize ≤ r.1 := by
  have hne : bs ≠ [] := by rintro rfl; cases hr
  obtain ⟨xs, b, ys, rfl, rfl⟩ := hn.block ht hne
  rw [used_append] at hr
  rcases List.mem_append.mp hr with h | h
  · exact Or.inl (used_inside h).2
  · exact Or.inr (used_inside h).1

end AmateurOs.Malloc
