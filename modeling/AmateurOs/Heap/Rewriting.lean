/-
# Splitting and merging respect the list

`malloc_split` and `merge_free_blocks` rewrite headers inside the memory that the headers describe.
From any tiling, of any length and with any pattern of free and used nodes, both leave a tiling of
the same range in which every used node is where it was, with its size: `rewriting_respects`.

A node is its address and its block (`nodes`); its extent is the header with the bytes behind it.
-/
import Mathlib.Data.List.Pairwise
import AmateurOs.Heap.Ops

namespace AmateurOs.Malloc

open AmateurOs.Lib

variable {m : Bytes} {a : Nat} {bs bs' : List Block}

/-! ## 1. Nodes -/

/-- The nodes of the blocks that are laid out from `a` on. -/
def nodes : Nat → List Block → List (Nat × Block)
  | _, [] => []
  | a, b :: bs => (a, b) :: nodes (a + headerSize + b.size) bs

/-- The header of a node and the bytes behind it. -/
def extent (n : Nat × Block) : Nat × Nat := (n.1, headerSize + n.2.size)

instance : Std.Symm fun n n' : Nat × Block => Apart (extent n) (extent n') :=
  ⟨fun _ _ => Or.symm⟩

theorem mem_nodes {n : Nat × Block} : ∀ {bs : List Block} {a : Nat},
    n ∈ nodes a bs ↔ ∃ xs ys, bs = xs ++ n.2 :: ys ∧ n.1 = a + span xs
  | [], a => by
    refine iff_of_false List.not_mem_nil ?_
    rintro ⟨xs, ys, heq, -⟩
    cases xs <;> cases heq
  | b :: bs, a => by
    unfold nodes
    rw [List.mem_cons, mem_nodes]
    constructor
    · rintro (rfl | ⟨xs, ys, rfl, hn⟩)
      · exact ⟨[], bs, rfl, rfl⟩
      · refine ⟨b :: xs, ys, rfl, ?_⟩
        rw [span_cons]
        omega
    · rintro ⟨_ | ⟨c, xs⟩, ys, heq, hn⟩
      · obtain ⟨rfl, rfl⟩ := List.cons.inj heq
        exact Or.inl (Prod.ext hn rfl)
      · obtain ⟨rfl, rfl⟩ := List.cons.inj heq
        refine Or.inr ⟨xs, ys, rfl, ?_⟩
        rw [span_cons] at hn
        omega

theorem nodes_start {n : Nat × Block} (h : n ∈ nodes a bs) : a ≤ n.1 := by
  obtain ⟨xs, ys, -, hn⟩ := mem_nodes.mp h
  omega

/-- **The extents are apart**, whatever the blocks are. -/
theorem nodes_apart : ∀ (bs : List Block) (a : Nat),
    (nodes a bs).Pairwise fun n n' => Apart (extent n) (extent n')
  | [], _ => .nil
  | b :: bs, a => by
    refine .cons (fun n hn => Or.inl ?_) (nodes_apart bs _)
    have := nodes_start hn
    show a + (headerSize + b.size) ≤ n.1
    omega

/-- A used node and a free node are apart. -/
theorem used_free_apart {n n' : Nat × Block} (hn : n ∈ nodes a bs) (hn' : n' ∈ nodes a bs)
    (hused : n.2.free = false) (hfree : n'.2.free = true) : Apart (extent n) (extent n') := by
  have hne : n ≠ n' := by
    rintro rfl
    exact Bool.false_ne_true (hused.symm.trans hfree)
  exact (nodes_apart bs a).forall hn hn' hne

/-! ## 2. What is respected -/

/-- **The list is respected** from `bs` to `bs'`: the same range is tiled, with the same sum of sizes
and headers; every used node keeps its address and its size; no part of it is in a free node. -/
structure Respected (a : Nat) (bs bs' : List Block) : Prop where
  sum : (bs'.map fun b => b.size + headerSize).sum = (bs.map fun b => b.size + headerSize).sum
  range : span bs' = span bs
  kept : ∀ n ∈ nodes a bs, n.2.free = false → n ∈ nodes a bs'
  live : ∀ n ∈ nodes a bs, n.2.free = false → ∀ n' ∈ nodes a bs', n'.2.free = true →
    Apart (extent n) (extent n')

theorem sum_sizes : ∀ bs : List Block, (bs.map fun b => b.size + headerSize).sum = span bs
  | [] => rfl
  | b :: bs => by
    rw [List.map_cons, List.sum_cons, sum_sizes, span_cons, Nat.add_comm b.size]

/-- It is enough that the used nodes stay. -/
theorem Respected.of_kept (hspan : span bs' = span bs)
    (hkept : ∀ n ∈ nodes a bs, n.2.free = false → n ∈ nodes a bs') : Respected a bs bs' :=
  ⟨by rw [sum_sizes, sum_sizes, hspan], hspan, hkept,
    fun n hn hused n' hn' hfree => used_free_apart (hkept n hn hused) hn' hused hfree⟩

/-- **A split** of a free block keeps the other nodes. -/
theorem split_respected {xs ys : List Block} {b : Block} {size : Nat} (hfree : b.free = true)
    (hsize : size + headerSize ≤ b.size) :
    Respected a (xs ++ b :: ys)
      (xs ++ ⟨size, false⟩ :: ⟨b.size - size - headerSize, true⟩ :: ys) := by
  have hspan : ∀ zs, span (xs ++ ⟨size, false⟩ :: ⟨b.size - size - headerSize, true⟩ :: zs) =
      span (xs ++ b :: zs) := by
    intro zs
    simp only [span_append, span_cons]
    omega
  refine .of_kept (hspan ys) fun n hn hused => ?_
  obtain ⟨us, vs, heq, hat⟩ := mem_nodes.mp hn
  rcases List.append_eq_append_iff.mp heq with ⟨zs, rfl, hzs⟩ | ⟨zs, rfl, hzs⟩
  · -- The used node lies behind the block.
    cases zs with
    | nil =>
      obtain ⟨rfl, -⟩ := List.cons.inj hzs
      exact absurd (hused.symm.trans hfree) Bool.false_ne_true
    | cons c zs =>
      obtain ⟨rfl, rfl⟩ := List.cons.inj hzs
      refine mem_nodes.mpr
        ⟨xs ++ ⟨size, false⟩ :: ⟨b.size - size - headerSize, true⟩ :: zs, vs, by simp, ?_⟩
      rw [hspan zs]
      exact hat
  · cases zs with
    | nil =>
      obtain ⟨rfl, -⟩ := List.cons.inj hzs
      exact absurd (hused.symm.trans hfree) Bool.false_ne_true
    | cons c zs =>
      obtain ⟨rfl, rfl⟩ := List.cons.inj hzs
      exact mem_nodes.mpr ⟨us, zs ++ ⟨size, false⟩ :: ⟨b.size - size - headerSize, true⟩ :: ys,
        by simp, hat⟩

/-- **A merging pass** keeps every used node. -/
theorem merge_kept {n : Nat × Block} (hused : n.2.free = false) :
    ∀ {bs : List Block} {a : Nat}, n ∈ nodes a bs → n ∈ nodes a (mergeBlocks bs) := by
  intro bs
  fun_induction mergeBlocks bs with
  | case1 b c bs hff ih =>
    intro a hn
    rw [Bool.and_eq_true] at hff
    unfold nodes at hn ⊢
    rcases List.mem_cons.mp hn with rfl | hn
    · exact absurd (hused.symm.trans hff.1) Bool.false_ne_true
    · unfold nodes at hn
      rcases List.mem_cons.mp hn with rfl | hn
      · exact absurd (hused.symm.trans hff.2) Bool.false_ne_true
      · have hplace : a + headerSize + (b.size + (c.size + headerSize)) =
            a + headerSize + b.size + headerSize + c.size := by omega
        rw [hplace]
        exact List.mem_cons_of_mem _ (ih hn)
  | case2 b c bs hff ih =>
    intro a hn
    unfold nodes at hn ⊢
    rcases List.mem_cons.mp hn with rfl | hn
    · exact List.mem_cons_self
    · exact List.mem_cons_of_mem _ (ih hn)
  | case3 bs h => exact id

/-! ## 3. The functions -/

/-- `malloc_list_head` of a list that starts at `a`. -/
def listHead (a : Nat) (bs : List Block) : Nat := if bs.isEmpty then 0 else a

/-- **Splitting and merging respect the list.**  The range may end with the memory. -/
theorem rewriting_respects (h : Tiles m a bs) (ha : 0 < a) (hend : a + span bs ≤ addressSpace) :
    (∀ n ∈ nodes a bs, n.2.free = true → ∀ size, size + headerSize ≤ n.2.size →
      ∃ bs', Tiles (mallocSplit m n.1 size) a bs' ∧ Respected a bs bs' ∧
        (n.1, ⟨size, false⟩) ∈ nodes a bs') ∧
    ∃ m' bs', mergeFreeBlocks m (listHead a bs) = some m' ∧ Tiles m' a bs' ∧
      Respected a bs bs' := by
  constructor
  · rintro ⟨node, b⟩ hn hfree size hsize
    obtain ⟨xs, ys, rfl, rfl⟩ := mem_nodes.mp hn
    exact ⟨_, mallocSplit_tiles h hsize hend, split_respected hfree hsize,
      mem_nodes.mpr ⟨xs, _, rfl, rfl⟩⟩
  · have hrespected : Respected a bs (mergeBlocks bs) :=
      .of_kept (span_mergeBlocks bs) fun n hn hused => merge_kept hused hn
    cases bs with
    | nil => exact ⟨m, [], rfl, trivial, hrespected⟩
    | cons b bs =>
      obtain ⟨m', hrun, htiles⟩ := mergeFreeBlocks_tiles h ha (List.cons_ne_nil b bs) hend
      exact ⟨m', _, hrun, htiles, hrespected⟩

/-- A used node of 40 bytes and a free node of 48, at 4096. -/
def twoNodes : Bytes := mallocSplit (writeNode (fun _ => 0) 4096 100 1 0) 4096 40

theorem twoNodes_tiles : Tiles twoNodes 4096 [⟨40, false⟩, ⟨48, true⟩] := by
  have hone : Tiles (writeNode (fun _ => 0) 4096 100 1 0) 4096 ([] ++ ⟨100, true⟩ :: []) :=
    ⟨nodeAt_writeNode (by decide) (by decide) (by decide), trivial⟩
  exact mallocSplit_tiles hone (by decide) (by decide)

/-- The free node is split, and the list merged. -/
theorem rewriting_respects_two :
    (∃ bs', Tiles (mallocSplit twoNodes 4148 20) 4096 bs' ∧
      Respected 4096 [⟨40, false⟩, ⟨48, true⟩] bs' ∧ (4148, ⟨20, false⟩) ∈ nodes 4096 bs') ∧
    ∃ m' bs', mergeFreeBlocks twoNodes 4096 = some m' ∧ Tiles m' 4096 bs' ∧
      Respected 4096 [⟨40, false⟩, ⟨48, true⟩] bs' :=
  have h := rewriting_respects twoNodes_tiles (by decide) (by decide)
  ⟨h.1 (4148, ⟨48, true⟩) (List.mem_cons_of_mem _ List.mem_cons_self) rfl 20 (by decide), h.2⟩

end AmateurOs.Malloc
