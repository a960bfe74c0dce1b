/-
# Freeing everything

When every pointer has been freed, the list should be one free node over all the pages
(`OneFree`).  Two things stand in the way:

* `malloc_free` does not look at the last node, so a request that took it whole is never given
  back (`oneFree_fails`);
* `merge_free_blocks` goes on behind a merge, so of three free neighbours the third stays apart.

`sessions_oneFree` excludes just these: a request splits a node, takes one in front of the last
node whole, or grows the last one (`Reusable`), and the node of a freed pointer does not have a
free node on both sides (`FreesPair`).  The invariant is `Tidy`: the tiling has no two free
neighbours, its last block is free, and its used blocks are the ranges held.
-/
import Mathlib.Data.List.Chain
import AmateurOs.Heap.Contiguous

namespace AmateurOs.Malloc

open AmateurOs.Lib

/-! ## 1. Free neighbours -/

/-- Not both blocks are free. -/
def Apart₂ (b c : Block) : Prop := ¬ (b.free = true ∧ c.free = true)

/-- No two neighbours are free. -/
def Separated (bs : List Block) : Prop := bs.IsChain Apart₂

/-- No three neighbours are free. -/
def NoTriple : List Block → Prop
  | b :: c :: d :: bs =>
    ¬ (b.free = true ∧ c.free = true ∧ d.free = true) ∧ NoTriple (c :: d :: bs)
  | _ => True

/-- The last block is free. -/
def LastFree (bs : List Block) : Prop := ∀ b ∈ bs.getLast?, b.free = true

theorem separated_split {xs ys : List Block} {b : Block} :
    Separated (xs ++ b :: ys) ↔ Separated xs ∧ Separated ys ∧
      (∀ x ∈ xs.getLast?, Apart₂ x b) ∧ ∀ y ∈ ys.head?, Apart₂ b y := by
  unfold Separated
  rw [List.isChain_append, List.isChain_cons]
  simp only [List.head?_cons, Option.mem_def, Option.some.injEq, forall_eq']
  exact ⟨fun ⟨h1, ⟨h2, h3⟩, h4⟩ => ⟨h1, h3, h4, h2⟩, fun ⟨h1, h3, h4, h2⟩ => ⟨h1, ⟨h2, h3⟩, h4⟩⟩

/-- The pass keeps whether the first block is free. -/
theorem mergeBlocks_first (b : Block) (bs : List Block) :
    ∃ c cs, mergeBlocks (b :: bs) = c :: cs ∧ c.free = b.free := by
  cases bs with
  | nil => exact ⟨b, [], rfl, rfl⟩
  | cons d bs =>
    by_cases h : (b.free && d.free) = true
    · refine ⟨_, _, by rw [mergeBlocks, if_pos h], ?_⟩
      exact ((Bool.and_eq_true_iff.mp h).1).symm
    · exact ⟨b, _, by rw [mergeBlocks, if_neg h], rfl⟩

/-- **A pass over blocks of which no three neighbours are free** leaves no two. -/
theorem separated_mergeBlocks (bs : List Block) (h : NoTriple bs) :
    Separated (mergeBlocks bs) := by
  fun_induction mergeBlocks bs with
  | case1 b c bs hf ih =>
    obtain ⟨hb, hc⟩ := Bool.and_eq_true_iff.mp hf
    cases bs with
    | nil => exact List.isChain_singleton _
    | cons d bs =>
      obtain ⟨hnot, hrest⟩ := h
      obtain ⟨e, es, he, hfree⟩ := mergeBlocks_first d bs
      have hd : Separated (mergeBlocks (d :: bs)) := ih (by
        cases bs with
        | nil => trivial
        | cons e bs =>
          cases bs with
          | nil => trivial
          | cons f bs => exact hrest.2)
      rw [he] at hd ⊢
      refine List.isChain_cons_cons.mpr ⟨fun hboth => hnot ⟨hb, hc, ?_⟩, hd⟩
      exact hfree ▸ hboth.2
  | case2 b c bs hf ih =>
    obtain ⟨e, es, he, hfree⟩ := mergeBlocks_first c bs
    have hc : Separated (mergeBlocks (c :: bs)) := ih (by
      cases bs with
      | nil => trivial
      | cons d bs => exact h.2)
    rw [he] at hc ⊢
    refine List.isChain_cons_cons.mpr ⟨fun hboth => hf ?_, hc⟩
    rw [Bool.and_eq_true_iff]
    exact ⟨hboth.1, hfree ▸ hboth.2⟩
  | case3 bs hbs =>
    cases bs with
    | nil => exact List.isChain_nil
    | cons b bs =>
      cases bs with
      | nil => exact List.isChain_singleton _
      | cons c bs => exact absurd rfl (hbs b c bs)

/-- A pass over blocks of which no two neighbours are free does nothing. -/
theorem mergeBlocks_separated (bs : List Block) (h : Separated bs) : mergeBlocks bs = bs := by
  fun_induction mergeBlocks bs with
  | case1 b c bs hf ih =>
    exact absurd (Bool.and_eq_true_iff.mp hf) (List.isChain_cons_cons.mp h).1
  | case2 b c bs hf ih => rw [ih (List.isChain_cons_cons.mp h).2]
  | case3 bs hbs => rfl

/-- The pass keeps the last block free. -/
theorem lastFree_mergeBlocks (bs : List Block) (h : LastFree bs) : LastFree (mergeBlocks bs) := by
  fun_induction mergeBlocks bs with
  | case1 b c bs hf ih =>
    cases bs with
    | nil =>
      intro d hd
      obtain rfl := Option.some.inj hd
      rfl
    | cons d bs =>
      obtain ⟨e, es, he, -⟩ := mergeBlocks_first d bs
      have hlast := ih (by simpa [LastFree] using h)
      rw [he] at hlast ⊢
      simpa [LastFree] using hlast
  | case2 b c bs hf ih =>
    obtain ⟨e, es, he, -⟩ := mergeBlocks_first c bs
    have hlast := ih (by simpa [LastFree] using h)
    rw [he] at hlast ⊢
    simpa [LastFree] using hlast
  | case3 bs hbs => exact h

theorem noTriple_of_separated : ∀ (bs : List Block) (b : Block), Separated bs →
    NoTriple (b :: bs)
  | [], _, _ => trivial
  | [_], _, _ => trivial
  | c :: d :: bs, b, h => by
    obtain ⟨hcd, hrest⟩ := List.isChain_cons_cons.mp h
    exact ⟨fun hf => hcd hf.2, noTriple_of_separated (d :: bs) c hrest⟩

/-- **Freeing a block** that does not have a free neighbour on either side makes no three free
neighbours. -/
theorem noTriple_freed {b c : Block} {ys : List Block} : ∀ (xs : List Block),
    Separated (xs ++ b :: ys) →
    (∀ x ∈ xs.getLast?, ∀ y ∈ ys.head?, Apart₂ x y) → NoTriple (xs ++ c :: ys) := by
  intro xs
  induction xs with
  | nil => exact fun h _ => noTriple_of_separated ys c (separated_split.mp h).2.1
  | cons x xs ih =>
    intro h hapart
    have hrest : Separated (xs ++ b :: ys) := h.tail
    cases xs with
    | nil =>
      cases ys with
      | nil => trivial
      | cons y ys =>
        have hxy : Apart₂ x y := hapart x rfl y rfl
        exact ⟨fun hf => hxy ⟨hf.1, hf.2.2⟩,
          noTriple_of_separated (y :: ys) c (separated_split.mp h).2.1⟩
    | cons x' xs =>
      have hxx : Apart₂ x x' := (List.isChain_cons_cons.mp h).1
      have hnext := ih hrest (by simpa using hapart)
      obtain ⟨d, ds, hd⟩ : ∃ d ds, xs ++ c :: ys = d :: ds := by
        cases xs with
        | nil => exact ⟨c, ys, rfl⟩
        | cons z zs => exact ⟨z, zs ++ c :: ys, rfl⟩
      simp only [List.cons_append, hd] at hnext ⊢
      exact ⟨fun hf => hxx ⟨hf.1, hf.2.1⟩, hnext⟩

/-! ## 2. The property and the condition -/

/-- **One free node over all the pages.** -/
structure OneFree (h : Heap) : Prop where
  head : h.mallocListHead = h.mallocStart
  free : nodeFree h.mem h.mallocListHead ≠ 0
  only : nodeNext h.mem h.mallocListHead = 0
  size : nodeSize h.mem h.mallocListHead = h.totalMallocPages * pageSize - headerSize

/-- A request splits the node of the first fit, takes it whole in front of the last node, or makes
the last node grow. -/
def Reusable (h : Heap) (size : Nat) : Prop :=
  ∀ cur, FirstFit h.mem size h.mallocListHead cur →
    size + headerSize < nodeSize h.mem cur ∨
      (nodeSize h.mem cur = size ∧ nodeNext h.mem cur ≠ 0) ∨
      (nodeNext h.mem cur = 0 ∧ nodeSize h.mem cur ≠ size ∧
        h.mallocStart + (h.totalMallocPages + pagesFor (nodeSize h.mem cur) size) * pageSize <
          addressSpace)

/-- The nodes before and behind the node of a pointer are not both free. -/
def FreesPair (h : Heap) (ptr : Nat) : Prop :=
  ∀ n, Listed h.mem h.mallocListHead n → nodeNext h.mem n ≠ 0 →
    nodeNext h.mem n + headerSize = ptr →
    nodeFree h.mem n = 0 ∨ nodeFree h.mem (nodeNext h.mem (nodeNext h.mem n)) = 0

/-- The condition on a call. -/
def Returnable (s : Session) : Call → Prop
  | .malloc size _ => Reusable s.heap size
  | .free ptr => FreesPair s.heap ptr

/-! ## 3. The invariant -/

/-- A tiling without free neighbours, with a free last block, whose used blocks are the ranges
held. -/
structure Tidy (s : Session) (bs : List Block) : Prop where
  laid : Laid s.heap bs
  separated : Separated bs
  last : LastFree bs
  live : ∀ r, r ∈ s.live ↔ r ∈ used s.heap.mallocStart bs

/-- **When nothing is held**, a tidy heap is one free node. -/
theorem Tidy.oneFree {s : Session} {bs : List Block} (h : Tidy s bs) (hnone : s.live = []) :
    OneFree s.heap := by
  have hl := h.laid
  have hall : ∀ b ∈ bs, b.free = true := by
    intro b hb
    by_contra hfree
    obtain ⟨xs, ys, rfl⟩ := List.append_of_mem hb
    have hmem : (s.heap.mallocStart + span xs + headerSize, b.size) ∈ s.live := by
      rw [h.live, used_append]
      refine List.mem_append_right _ ?_
      rw [used, if_neg hfree]
      exact List.mem_append_left _ List.mem_cons_self
    rw [hnone] at hmem
    exact absurd hmem List.not_mem_nil
  obtain ⟨b, cs, rfl, -⟩ := hl.first
  cases cs with
  | cons c cs =>
    have hbc := (List.isChain_cons_cons.mp h.separated).1
    exact absurd ⟨hall b (by simp), hall c (by simp)⟩ hbc
  | nil =>
    obtain ⟨hnode, -⟩ := hl.tiles
    have hpages := hl.pages
    rw [span_cons, span_nil] at hpages
    refine ⟨hl.head, ?_, ?_, ?_⟩
    · rw [hl.head, hnode.free]
      exact hall b (by simp)
    · rw [hl.head, hnode.next]
      rfl
    · rw [hl.head, hnode.size]
      omega

/-- A used block of a tiling, by the range handed out. -/
theorem used_block {bs : List Block} : ∀ {a : Nat} {r : Nat × Nat}, r ∈ used a bs →
    ∃ xs b ys, bs = xs ++ b :: ys ∧ b.free = false ∧ r = (a + span xs + headerSize, b.size) := by
  induction bs with
  | nil => exact fun h => absurd h List.not_mem_nil
  | cons b bs ih =>
    intro a r h
    rcases List.mem_append.mp h with h | h
    · by_cases hfree : b.free = true
      · rw [if_pos hfree] at h
        exact absurd h List.not_mem_nil
      · rw [if_neg hfree, List.mem_singleton] at h
        exact ⟨[], b, bs, rfl, by simpa using hfree, h⟩
    · obtain ⟨xs, c, ys, rfl, hc, rfl⟩ := ih h
      refine ⟨b :: xs, c, ys, rfl, hc, ?_⟩
      rw [span_cons]
      congr 1
      omega

/-- The ranges handed out before and behind a block are not at its pointer. -/
theorem used_around {a : Nat} {xs ys : List Block} {n : Nat} {r : Nat × Nat}
    (h : r ∈ used a xs ∨ r ∈ used (a + span xs + headerSize + n) ys) :
    r.1 ≠ a + span xs + headerSize := by
  rcases h with h | h
  · have := (used_inside h).2
    unfold headerSize
    omega
  · have := (used_inside h).1
    unfold headerSize at *
    omega

/-- The last block is that of what comes behind. -/
theorem lastFree_append {xs ys : List Block} {b : Block} :
    LastFree (xs ++ b :: ys) ↔ LastFree (b :: ys) := by
  simp [LastFree, List.getLast?_append]

/-! ## 4. A request -/

section Cut

variable {xs ys zs : List Block} {b : Block} {size : Nat}

/-- Cutting a free block leaves no free neighbours. -/
theorem Cut.separated (h : Cut b ys size zs) (hb : b.free = true)
    (hs : Separated (xs ++ b :: ys)) : Separated (xs ++ ⟨size, false⟩ :: (zs ++ ys)) := by
  obtain ⟨hxs, hys, hbefore, hbehind⟩ := separated_split.mp hs
  have hused : ∀ c : Block, Apart₂ c ⟨size, false⟩ ∧ Apart₂ ⟨size, false⟩ c :=
    fun c => ⟨fun hf => Bool.false_ne_true hf.2, fun hf => Bool.false_ne_true hf.1⟩
  refine separated_split.mpr ⟨hxs, ?_, fun x _ => (hused x).1, fun y _ => (hused y).2⟩
  have hrest : ∀ n, Separated (⟨n, true⟩ :: ys) := fun n =>
    List.isChain_cons.mpr ⟨fun y hy hf => hbehind y hy ⟨hb, hf.2⟩, hys⟩
  cases h with
  | exact => exact hys
  | split => exact hrest _
  | grow => exact hrest _

/-- The last block stays free, unless it is taken whole. -/
theorem Cut.lastFree (h : Cut b ys size zs) (hlast : LastFree (xs ++ b :: ys))
    (hexact : b.size = size → ys ≠ []) : LastFree (xs ++ ⟨size, false⟩ :: (zs ++ ys)) := by
  rw [lastFree_append] at hlast ⊢
  have hrest : ∀ n, LastFree (⟨size, false⟩ :: ⟨n, true⟩ :: ys) := by
    intro n
    cases ys with
    | nil => simp [LastFree]
    | cons y ys => simpa [LastFree] using hlast
  cases h with
  | exact hsize =>
    cases ys with
    | nil => exact absurd rfl (hexact hsize)
    | cons y ys => simpa [LastFree] using hlast
  | split => exact hrest _
  | grow => exact hrest _

/-- Nothing but the new range is handed out. -/
theorem Cut.used_back {a : Nat} {r : Nat × Nat} (h : Cut b ys size zs) (hb : b.free = true)
    (hr : r ∈ Malloc.used a (xs ++ ⟨size, false⟩ :: (zs ++ ys))) :
    r = (a + span xs + headerSize, size) ∨ r ∈ Malloc.used a (xs ++ b :: ys) := by
  simp only [used_append, Malloc.used, hb, Bool.false_eq_true, if_false, if_true, List.nil_append,
    List.mem_append, List.mem_singleton] at hr ⊢
  rcases hr with hr | hr | hr | hr
  · exact Or.inr (Or.inl hr)
  · exact Or.inl hr
  · cases h with
    | exact => exact absurd hr List.not_mem_nil
    | split => exact absurd hr List.not_mem_nil
    | grow => exact absurd hr List.not_mem_nil
  · refine Or.inr (Or.inr ?_)
    cases h with
    | exact hsize => rwa [hsize]
    | @split n hsize =>
      simp only [span_cons, span_nil] at hr
      rwa [(by omega : a + span xs + headerSize + b.size =
        a + span xs + headerSize + size + (headerSize + n + 0))]
    | grow hlast =>
      subst hlast
      exact absurd hr List.not_mem_nil

end Cut

/-- **A request** on a tidy heap leaves it tidy. -/
theorem malloc_tidy {s : Session} {bs : List Block} {size ptr : Nat} {frames : Bytes} {h' : Heap}
    (ht : Tidy s bs) (hpos : 1 ≤ size) (hmax : size < 2 ^ 20) (hok : Reusable s.heap size)
    (hret : syscallMalloc s.heap size frames = some (ptr, h')) :
    ∃ bs', Tidy ⟨h', (ptr, size) :: s.live⟩ bs' := by
  have hplaceable : Placeable s.heap size := by
    intro cur hcur
    rcases hok cur hcur with hsplit | ⟨hexact, -⟩ | ⟨hlast, -, hroom⟩
    · exact Or.inr (Or.inl hsplit)
    · exact Or.inl hexact
    · exact Or.inr (Or.inr ⟨hlast, hroom⟩)
  obtain ⟨h₁, hnext, hstart', hmerged⟩ := syscallMalloc_merged ht.laid hret
  obtain ⟨hstart, xs, b, ys, zs, rfl, hfit, rfl, hcut, hl'⟩ :=
    mallocNextBlock_placed ht.laid hpos (requested_word hmax) hplaceable hnext
  have hnode := tiles_node ht.laid.tiles
  have hpositive := ht.laid.start
  have hlink : ys ≠ [] → nodeNext s.heap.mem (s.heap.mallocStart + span xs) ≠ 0 := by
    intro hys
    rw [hnode.next, if_neg (by simpa using hys)]
    omega
  -- the node of the first fit is free
  have hb : b.free = true := by
    rcases hfit.found with ⟨hfree, -⟩ | hlast
    · exact hnode.free.mp hfree
    · have hys : ys = [] := by
        by_contra hys
        exact hlink hys hlast
      subst hys
      exact lastFree_append.mp ht.last b rfl
  have hexact : b.size = size → ys ≠ [] := by
    rintro hsize rfl
    have hend : nodeNext s.heap.mem (s.heap.mallocStart + span xs) = 0 := hnode.next
    rcases hok _ hfit with hsplit | ⟨-, hmore⟩ | ⟨-, hdiff, -⟩
    · rw [hnode.size] at hsplit
      omega
    · exact hmore hend
    · exact hdiff (hnode.size.trans hsize)
  have hsep := hcut.separated hb ht.separated
  have hmerge := mergeBlocks_separated _ hsep
  have hlaid : Laid h' (xs ++ ⟨size, false⟩ :: (zs ++ ys)) := hmerge ▸ hmerged _ hl'
  refine ⟨_, hlaid, hsep, hcut.lastFree ht.last hexact, fun r => ?_⟩
  obtain ⟨hnew, hold⟩ := hcut.used s.heap.mallocStart xs
  rw [hstart', hstart, List.mem_cons, ht.live]
  constructor
  · rintro (rfl | hr)
    · exact hnew
    · refine hold r hr (@used_around _ xs ys b.size r ?_)
      simpa [used, hb] using hr
  · exact hcut.used_back hb

/-! ## 5. A free -/

/-- **A free** on a tidy heap leaves it tidy. -/
theorem free_tidy {s : Session} {bs : List Block} {ptr n : Nat} {h' : Heap} (ht : Tidy s bs)
    (hok : FreesPair s.heap ptr) (hlive : (ptr, n) ∈ s.live)
    (hret : syscallFree s.heap ptr = some h') :
    ∃ bs', Tidy ⟨h', s.live.filter fun r => r.1 ≠ ptr⟩ bs' := by
  have hused := (ht.live _).mp hlive
  rcases mallocFree_laid ht.laid hret with ⟨xs, b, ys, rfl, hys, hptr, hstart, hl'⟩ | ⟨-, hnone⟩
  · have hpositive := ht.laid.start
    have hb : b.free = false := by
      by_contra hfree
      have hbfree : b.free = true := by simpa using hfree
      refine absurd hptr (@used_around _ xs ys b.size (ptr, n) ?_)
      simpa [used, hbfree] using hused
    have hpair : ∀ x ∈ xs.getLast?, ∀ y ∈ ys.head?, Apart₂ x y := by
      intro x hx y hy hboth
      obtain ⟨ws, rfl⟩ := List.getLast?_eq_some_iff.mp hx
      obtain ⟨us, rfl⟩ := List.head?_eq_some_iff.mp hy
      have hbefore : ws ++ [x] ++ b :: y :: us = ws ++ x :: b :: y :: us := by simp
      have hbehind : ws ++ [x] ++ b :: y :: us = (ws ++ [x] ++ [b]) ++ y :: us := by simp
      have hnode := tiles_node ht.laid.tiles
      have hnodeX := tiles_node (hbefore ▸ ht.laid.tiles)
      have hnodeY := tiles_node (hbehind ▸ ht.laid.tiles)
      have hlisted := listed_node hpositive ws (hbefore ▸ ht.laid.tiles)
      have hnext : nodeNext s.heap.mem (s.heap.mallocStart + span ws) =
          s.heap.mallocStart + span (ws ++ [x]) := by
        rw [hnodeX.next, if_neg (by simp), span_append, span_cons, span_nil]
        omega
      have hnext' : nodeNext s.heap.mem (s.heap.mallocStart + span (ws ++ [x])) =
          s.heap.mallocStart + span (ws ++ [x] ++ [b]) := by
        rw [hnode.next, if_neg (by simp), span_append (ws ++ [x]), span_cons, span_nil]
        omega
      rw [← ht.laid.head] at hlisted
      rcases hok _ hlisted (by rw [ht.laid.head, hnext]; omega)
        (by rw [ht.laid.head, hnext, hptr]) with hfree | hfree
      · rw [ht.laid.head] at hfree
        exact hnodeX.free.mpr hboth.1 hfree
      · rw [ht.laid.head, hnext, hnext'] at hfree
        exact hnodeY.free.mpr hboth.2 hfree
    have hmerged := noTriple_freed (c := ⟨b.size, true⟩) xs ht.separated hpair
    have hlast : LastFree (xs ++ ⟨b.size, true⟩ :: ys) := by
      have hold := lastFree_append.mp ht.last
      rw [lastFree_append]
      cases ys with
      | nil => exact absurd rfl hys
      | cons y ys => simpa [LastFree] using hold
    refine ⟨_, hl', separated_mergeBlocks _ hmerged, lastFree_mergeBlocks _ hlast, fun r => ?_⟩
    rw [used_mergeBlocks, hstart, List.mem_filter, ht.live]
    have hne : ∀ r, r ∈ used s.heap.mallocStart (xs ++ ⟨b.size, true⟩ :: ys) → r.1 ≠ ptr := by
      intro r hr
      rw [hptr]
      refine @used_around _ xs ys b.size r ?_
      simpa [used] using hr
    constructor
    · rintro ⟨hr, hrne⟩
      have hrne : r.1 ≠ ptr := by simpa using hrne
      simp only [used_append, used, hb, Bool.false_eq_true, if_false, if_true, List.nil_append,
        List.mem_append, List.mem_singleton] at hr ⊢
      rcases hr with hr | rfl | hr
      · exact Or.inl hr
      · exact absurd hptr.symm hrne
      · exact Or.inr hr
    · intro hr
      refine ⟨?_, by simpa using hne r hr⟩
      simp only [used_append, used, hb, Bool.false_eq_true, if_false, if_true, List.nil_append,
        List.mem_append, List.mem_singleton] at hr ⊢
      rcases hr with hr | hr
      · exact Or.inl hr
      · exact Or.inr (Or.inr hr)
  · obtain ⟨xs, b, ys, rfl, hb, he⟩ := used_block hused
    have hys : ys ≠ [] := by
      rintro rfl
      have hfree := lastFree_append.mp ht.last b rfl
      rw [hb] at hfree
      exact absurd hfree (by decide)
    exact absurd (congrArg Prod.fst he) (hnone xs b ys rfl hys)

/-! ## 6. Whole sessions -/

/-- The invariant of the sessions. -/
def Kept (s : Session) : Prop := ∃ bs, Tidy s bs

theorem initial_kept (mem frames : Bytes) : Kept (initial mem frames) := by
  refine ⟨_, initMalloc_laid mem frames, List.isChain_singleton _, ?_, fun r => ?_⟩
  · intro b hb
    obtain rfl := Option.some.inj hb
    rfl
  · exact iff_of_false List.not_mem_nil List.not_mem_nil

/-- One call that meets the condition. -/
theorem kept_step {s s' : Session} {c : Call} (hk : Kept s) (hok : Returnable s c)
    (hstep : Step s c s') : Kept s' := by
  obtain ⟨bs, ht⟩ := hk
  cases hstep with
  | malloc hpos hmax hret => exact malloc_tidy ht hpos hmax hok hret
  | free hlive hret => exact free_tidy ht hok hlive hret

/-- **Freeing everything restores one free block**, in every session whose calls meet the
condition. -/
theorem sessions_oneFree (mem frames : Bytes) (s : Session)
    (hrun : Reach Step Returnable (initial mem frames) s) (hnone : s.live = []) :
    OneFree s.heap := by
  obtain ⟨bs, ht⟩ := hrun.invariant (initial_kept mem frames)
    fun _ _ _ hk hok hstep => kept_step hk hok hstep
  exact ht.oneFree hnone

/-- The theorem at a request of 100 bytes that is freed again. -/
theorem sessions_oneFree_first : ∃ h₁ h₂,
    syscallMalloc (initMalloc (fun _ => 0) fun _ => 0) 100 (fun _ => 0) = some (0x40000C, h₁) ∧
      syscallFree h₁ 0x40000C = some h₂ ∧ OneFree h₂ := by
  let zeros : Bytes := fun _ => 0
  have hl₀ : Laid (initMalloc zeros zeros) ([] ++ [⟨4084, true⟩]) := initMalloc_laid zeros zeros
  obtain ⟨h₁, hret₁, hstart₁, hl₁⟩ := syscallMalloc_split zeros hl₀ (by simp)
    (show 100 + headerSize + 3972 = (Block.mk 4084 true).size from rfl) (by decide) (by decide)
    (by decide) (by decide)
  have hl₁ : Laid h₁ ([⟨100, false⟩] ++ [⟨3972, true⟩]) := by simpa [mergeBlocks] using hl₁
  obtain ⟨h₂, hret₂⟩ := syscallFree_returns 0x40000C hl₁
  have hok₁ : Returnable (initial zeros zeros) (.malloc 100 zeros) := by
    intro cur hcur
    refine Or.inl ?_
    obtain ⟨hnode, -⟩ := hl₀.tiles
    have hsize : nodeSize (initial zeros zeros).heap.mem cur = 4084 := by
      cases hcur with
      | fits => exact hnode.size
      | last => exact hnode.size
      | next _ hnext => exact absurd hnode.next hnext
    rw [hsize]
    decide
  generalize hptr : (initMalloc zeros zeros).mallocStart + span [] + headerSize = ptr at hret₁
  have hat : ptr = 0x40000C := hptr.symm
  rw [hat] at hret₁
  have hrun : Reach Step Returnable (initial zeros zeros) ⟨h₁, [(0x40000C, 100)]⟩ :=
    .tail .refl hok₁ (.malloc (by decide) (by decide) hret₁)
  have hok₂ : Returnable ⟨h₁, [(0x40000C, 100)]⟩ (.free 0x40000C) := by
    -- no node points at the first one
    intro n hn hnext hbefore
    have hnode := hl₁.contiguous.next n hn hnext
    have hlisted : Listed h₁.mem h₁.mallocStart n := hl₁.head ▸ hn
    obtain ⟨xs, b, ys, -, hat⟩ := hlisted.block hl₁.tiles hl₁.ne_nil
    have hstart : (initMalloc zeros zeros).mallocStart = 0x400000 := rfl
    have hbefore' : nodeNext h₁.mem n + headerSize = 0x40000C := hbefore
    unfold headerSize at hnode hbefore'
    omega
  have hfreed := hrun.tail hok₂ (.free (n := 100) List.mem_cons_self hret₂)
  exact ⟨h₁, h₂, hret₁, hret₂, sessions_oneFree zeros zeros _ hfreed (by simp)⟩

/-! ## 7. A last node taken whole -/

/-- **A request of the size of the only node is never given back.** -/
theorem oneFree_fails : ¬ ∀ (mem frames : Bytes) (s : Session),
    Reach Step (fun _ _ => True) (initial mem frames) s → s.live = [] → OneFree s.heap := by
  intro hall
  let zeros : Bytes := fun _ => 0
  obtain ⟨h₁, hret₁, hl₁, hstart₁⟩ := syscallMalloc_only (initMalloc_laid zeros zeros) zeros
  generalize hptr : (initMalloc zeros zeros).mallocStart + headerSize = ptr at hret₁
  obtain ⟨h₂, hret₂⟩ := syscallFree_returns ptr hl₁
  have hrun : Reach Step (fun _ _ => True) (initial zeros zeros) ⟨h₁, [(ptr, 4084)]⟩ :=
    .tail .refl trivial (.malloc (by decide) (by decide) hret₁)
  have hfreed := hrun.tail trivial (.free (n := 4084) List.mem_cons_self hret₂)
  have hone := hall _ _ _ hfreed (by simp)
  rcases mallocFree_laid hl₁ hret₂ with ⟨xs, b, ys, hsplit, hys, -⟩ | ⟨rfl, -⟩
  · cases xs with
    | nil => exact hys (List.cons.inj hsplit).2.symm
    | cons x xs => exact absurd (List.cons.inj hsplit).2 (by simp)
  · obtain ⟨hnode, -⟩ := hl₁.tiles
    have hfree := hone.free
    rw [hl₁.head, hnode.free] at hfree
    exact absurd hfree (by decide)

end AmateurOs.Malloc
