/-
# Live allocations never overlap, as long as the scan stops at the right node

The history of a heap is a sequence of `syscall_malloc` and `syscall_free` calls; a `Session`
keeps, next to the heap, the ranges the program holds.  `Sound` is what a program relies on:
the ranges are pairwise disjoint, lie in the mapped heap and contain no list header.

`malloc_next_block` breaks this, because its scan leaves the loop at the last node whether or
not that node is free and large enough, and because the growing branch runs at any node whose
size exceeds the request by at most a header:

* two requests of 4084 bytes are answered with the same pointer (`sound_fails`);
* `Suitable` is the condition a call has to meet: the node of the first fit is not held by the
  program, and it has the exact size, or can be split, or is the last node of a heap that can
  still grow inside the address space.

`sessions_sound` proves that in every session whose calls meet it, `Sound` holds throughout.  The
invariant is that the list of headers is a tiling (`Laid`) among whose used blocks are all the
ranges held.
-/
import Mathlib.Data.List.Pairwise
import AmateurOs.Heap.Ops

namespace AmateurOs.Malloc

open AmateurOs.Lib

/-! ## 1. Sessions -/

/-- A heap and the ranges a program holds: the pointers returned and not yet freed, with the
sizes asked for. -/
structure Session where
  heap : Heap
  live : List (Nat × Nat)

/-- A call of the program.  `frames` is what the frames mapped by the call hold. -/
inductive Call
  | malloc (size : Nat) (frames : Bytes)
  | free (ptr : Nat)

/-- The calls that return, with the session they leave. -/
inductive Step : Session → Call → Session → Prop
  | malloc {s : Session} {size ptr : Nat} {frames : Bytes} {h : Heap} (hpos : 1 ≤ size)
      (hmax : size < 2 ^ 20) (hret : syscallMalloc s.heap size frames = some (ptr, h)) :
      Step s (.malloc size frames) ⟨h, (ptr, size) :: s.live⟩
  | free {s : Session} {ptr n : Nat} {h : Heap} (hlive : (ptr, n) ∈ s.live)
      (hret : syscallFree s.heap ptr = some h) :
      Step s (.free ptr) ⟨h, s.live.filter fun r => r.1 ≠ ptr⟩

/-- What the program relies on. -/
structure Sound (s : Session) : Prop where
  disjoint : s.live.Pairwise Apart
  inside : ∀ r ∈ s.live, s.heap.mallocStart ≤ r.1 ∧
    r.1 + r.2 ≤ s.heap.mallocStart + s.heap.totalMallocPages * pageSize
  headers : ∀ r ∈ s.live, ∀ n, Listed s.heap.mem s.heap.mallocListHead n →
    r.1 + r.2 ≤ n ∨ n + headerSize ≤ r.1

/-- First fit over the list from a node on: the first node that is free and large enough, or
the last node when there is none. -/
inductive FirstFit (m : Bytes) (size : Nat) : Nat → Nat → Prop
  | fits {n : Nat} (hfree : nodeFree m n ≠ 0) (hsize : size ≤ nodeSize m n) : FirstFit m size n n
  | last {n : Nat} (hnext : nodeNext m n = 0) : FirstFit m size n n
  | next {n cur : Nat} (hno : nodeFree m n = 0 ∨ nodeSize m n < size) (hnext : nodeNext m n ≠ 0)
      (h : FirstFit m size (nodeNext m n) cur) : FirstFit m size n cur

/-- The pages by which a last node of `curSize` bytes grows for a request. -/
def pagesFor (curSize size : Nat) : Nat :=
  max 1 ((size + headerSize - curSize + (pageSize - 1)) / pageSize)

/-- **When `malloc_next_block` is right.**  The node `cur` of the first fit is not held by the
program; and it fits exactly, or is split, or is the last node and the pages added to it stay
inside the address space. -/
def Suitable (s : Session) (size : Nat) : Prop :=
  ∀ cur, FirstFit s.heap.mem size s.heap.mallocListHead cur →
    (∀ r ∈ s.live, r.1 ≠ cur + headerSize) ∧
    (nodeSize s.heap.mem cur = size ∨ size + headerSize < nodeSize s.heap.mem cur ∨
      (nodeNext s.heap.mem cur = 0 ∧ s.heap.mallocStart + (s.heap.totalMallocPages +
        pagesFor (nodeSize s.heap.mem cur) size) * pageSize < addressSpace))

/-- The condition on a call: every `malloc` is `Suitable`. -/
def CallOk (s : Session) : Call → Prop
  | .malloc size _ => Suitable s size
  | .free _ => True

/-! ## 2. The invariant -/

/-- The headers of the heap are the tiling `bs` of its pages. -/
structure Laid (h : Heap) (bs : List Block) : Prop where
  start : 0 < h.mallocStart
  head : h.mallocListHead = h.mallocStart
  virt : h.mallocVirtAddress = h.mallocStart
  tiles : Tiles h.mem h.mallocStart bs
  pages : span bs = h.totalMallocPages * pageSize
  fits : h.mallocStart + h.totalMallocPages * pageSize < addressSpace
  first : ∃ b cs, bs = b :: cs ∧ 0 < b.size

theorem Laid.ne_nil {h : Heap} {bs : List Block} (hl : Laid h bs) : bs ≠ [] := by
  obtain ⟨b, cs, rfl, -⟩ := hl.first
  simp

theorem Laid.bound {h : Heap} {bs : List Block} (hl : Laid h bs) :
    h.mallocStart + span bs < 4294967296 := by
  have := hl.fits
  rw [← hl.pages] at this
  exact this

/-- Every range held is a used block of the tiling, and no pointer is held twice. -/
structure Holds (s : Session) : Prop where
  laid : ∃ bs, Laid s.heap bs ∧ ∀ r ∈ s.live, r ∈ used s.heap.mallocStart bs
  nodup : s.live.Nodup

/-- **The invariant gives the property.** -/
theorem Holds.sound {s : Session} (h : Holds s) : Sound s := by
  obtain ⟨⟨bs, hl, hused⟩, hnd⟩ := h
  refine ⟨?_, fun r hr => ?_, fun r hr n hn => ?_⟩
  · refine List.Pairwise.imp_of_mem (fun {r r'} hr hr' hne => ?_) hnd
    exact used_apart.forall (hused r hr) (hused r' hr') hne
  · obtain ⟨h1, h2⟩ := used_inside (hused r hr)
    rw [hl.pages] at h2
    exact ⟨by omega, h2⟩
  · rw [hl.head] at hn
    exact used_header hl.tiles hn (hused r hr)

/-! ## 3. `malloc_next_block` on a tiling -/

/-- What a successful allocation leaves: a tiling that has the new range, and every other range
it had before. -/
structure Allocated (h h' : Heap) (bs : List Block) (ptr size : Nat) : Prop where
  start : h'.mallocStart = h.mallocStart
  tiling : ∃ bs', Laid h' bs' ∧ (ptr, size) ∈ used h.mallocStart bs' ∧
    ∀ r ∈ used h.mallocStart bs, r.1 ≠ ptr → r ∈ used h.mallocStart bs'

/-- Replacing one block by blocks that start with a used block of the size asked for. -/
theorem used_replace (a : Nat) (xs ys zs : List Block) {size : Nat} {b : Block}
    (hspan : span zs + size = b.size) :
    (a + span xs + headerSize, size) ∈ used a (xs ++ ⟨size, false⟩ :: (zs ++ ys)) ∧
    ∀ r ∈ used a (xs ++ b :: ys), r.1 ≠ a + span xs + headerSize →
      r ∈ used a (xs ++ ⟨size, false⟩ :: (zs ++ ys)) := by
  simp only [used_append, used, Bool.false_eq_true, if_false, List.mem_append,
    List.mem_singleton]
  refine ⟨Or.inr (Or.inl trivial), fun r hr hne => ?_⟩
  rcases hr with hr | hr | hr
  · exact Or.inl hr
  · split at hr
    · cases hr
    · obtain rfl := List.mem_singleton.mp hr
      exact absurd rfl hne
  · refine Or.inr (Or.inr (Or.inr ?_))
    rwa [(by omega : a + span xs + headerSize + size + span zs
      = a + span xs + headerSize + b.size)]

/-- A first block that had bytes keeps having some when a block is replaced by one that has. -/
theorem first_replace {xs ys zs : List Block} {b c : Block}
    (hf : ∃ d cs, xs ++ b :: ys = d :: cs ∧ 0 < d.size) (hc : 0 < c.size) :
    ∃ d cs, xs ++ c :: zs = d :: cs ∧ 0 < d.size := by
  cases xs with
  | nil => exact ⟨c, zs, rfl, hc⟩
  | cons x xs =>
    obtain ⟨d, cs, heq, hd⟩ := hf
    obtain ⟨rfl, -⟩ := List.cons.inj heq
    exact ⟨x, xs ++ c :: zs, rfl, hd⟩

/-- Where the condition of the scan is false, first fit ends. -/
theorem firstFit_stop {m : Bytes} {size n : Nat}
    (h : ¬ ((decide (nodeSize m n < size) || nodeFree m n == 0) && nodeNext m n != 0) = true) :
    FirstFit m size n n := by
  by_cases hnext : nodeNext m n = 0
  · exact .last hnext
  · simp only [Bool.and_eq_true, Bool.or_eq_true, decide_eq_true_iff, beq_iff_eq, bne_iff_ne] at h
    have hfree : nodeFree m n ≠ 0 := fun h0 => h ⟨Or.inr h0, hnext⟩
    exact .fits hfree (Nat.not_lt.mp fun hlt => h ⟨Or.inl hlt, hnext⟩)

/-- The scan of `malloc_next_block` is first fit. -/
theorem scan_firstFit {m : Bytes} {size head cur : Nat} (h : scan m size head = some cur) :
    FirstFit m size head cur := by
  have hwalk : ∀ (fuel : Nat) {n : Nat}, loop
      (fun cur => (decide (nodeSize m cur < size) || nodeFree m cur == 0) && nodeNext m cur != 0)
      (nodeNext m) fuel n = some cur → FirstFit m size n cur := by
    intro fuel
    induction fuel with
    | zero =>
      intro n h
      unfold loop at h
      split at h
      · cases h
      · next hstop =>
        obtain rfl := Option.some.inj h
        exact firstFit_stop hstop
    | succ fuel ih =>
      intro n h
      unfold loop at h
      split at h
      · next hgo =>
        simp only [Bool.and_eq_true, Bool.or_eq_true, decide_eq_true_iff, beq_iff_eq, bne_iff_ne]
          at hgo
        exact .next hgo.1.symm hgo.2 (ih h)
      · next hstop =>
        obtain rfl := Option.some.inj h
        exact firstFit_stop hstop
  exact hwalk addressSpace h

/-- First fit ends at a free node that is large enough, or at the last node. -/
theorem FirstFit.found {m : Bytes} {size n cur : Nat} (h : FirstFit m size n cur) :
    (nodeFree m cur ≠ 0 ∧ size ≤ nodeSize m cur) ∨ nodeNext m cur = 0 := by
  induction h with
  | fits hfree hsize => exact Or.inl ⟨hfree, hsize⟩
  | last hnext => exact Or.inr hnext
  | next _ _ _ ih => exact ih

/-- The page count is at most the one of `pagesFor`, and makes the last block large enough for the
request and a further header. -/
theorem numPages_enough {curSize size n : Nat}
    (hroom : curSize + pagesFor curSize size * pageSize < 4294967296)
    (hnot : curSize ≤ size + headerSize) (h : numPages curSize size = some n) :
    size + headerSize ≤ curSize + n * pageSize ∧ n < 256 ∧ n ≤ pagesFor curSize size := by
  -- Every count tried but the first was preceded by one that was too small.
  have hturn : ∀ k : Nat,
      k < 256 ∧ (k ≤ 1 ∨ curSize + (k - 1) * pageSize < size + headerSize) →
      decide (u32 (curSize + k * pageSize) < u32 (size + headerSize)) = true →
      u8 (k + 1) < 256 ∧
        (u8 (k + 1) ≤ 1 ∨ curSize + (u8 (k + 1) - 1) * pageSize < size + headerSize) := by
    intro k _ hcond
    have hlt := of_decide_eq_true hcond
    unfold pagesFor headerSize pageSize u32 u8 at *
    refine ⟨Nat.mod_lt _ (by decide), ?_⟩
    omega
  obtain ⟨⟨hlt, hprev⟩, hexit⟩ := loop_inv hturn ⟨by decide, Or.inl (Nat.le_refl _)⟩ h
  have hle := of_decide_eq_false hexit
  unfold pagesFor headerSize pageSize u32 at *
  omega

/-- The node of the first fit has the size asked for, or can be split, or is the last node of a
heap that can still grow inside the address space. -/
def Placeable (h : Heap) (size : Nat) : Prop :=
  ∀ cur, FirstFit h.mem size h.mallocListHead cur →
    nodeSize h.mem cur = size ∨ size + headerSize < nodeSize h.mem cur ∨
      (nodeNext h.mem cur = 0 ∧ h.mallocStart + (h.totalMallocPages +
        pagesFor (nodeSize h.mem cur) size) * pageSize < addressSpace)

/-- How a block is cut for a request: what is left of it behind the bytes handed out. -/
inductive Cut (b : Block) (ys : List Block) (size : Nat) : List Block → Prop
  | exact (hsize : b.size = size) : Cut b ys size []
  | split {n : Nat} (hsize : size + headerSize + n = b.size) (hpos : 0 < n) :
      Cut b ys size [⟨n, true⟩]
  | grow {n : Nat} (hlast : ys = []) (hsize : b.size ≠ size)
      (hsmall : b.size ≤ size + headerSize) : Cut b ys size [⟨n, true⟩]

/-- What a successful allocation does to a tiling: the block of the first fit is cut. -/
structure Placed (h h' : Heap) (bs : List Block) (ptr size : Nat) : Prop where
  start : h'.mallocStart = h.mallocStart
  tiling : ∃ xs b ys zs, bs = xs ++ b :: ys ∧
    FirstFit h.mem size h.mallocListHead (h.mallocStart + span xs) ∧
    ptr = h.mallocStart + span xs + headerSize ∧ Cut b ys size zs ∧
    Laid h' (xs ++ ⟨size, false⟩ :: (zs ++ ys))

/-- The first node is not empty: `malloc_init` is not called. -/
theorem Laid.head_size {h : Heap} {bs : List Block} (hl : Laid h bs) :
    nodeSize h.mem h.mallocListHead ≠ 0 := by
  obtain ⟨b₀, cs, hbs, hb₀⟩ := hl.first
  have ht := hl.tiles
  rw [hbs] at ht
  rw [hl.head, ht.1.size]
  omega

/-- The scan ends at a node of the tiling. -/
theorem Laid.scanned {h : Heap} {bs : List Block} (hl : Laid h bs) (size : Nat) :
    ∃ xs b ys, bs = xs ++ b :: ys ∧
      scan h.mem size h.mallocListHead = some (h.mallocStart + span xs) := by
  have hlen : bs.length ≤ addressSpace := by
    have := length_le_span bs
    have := hl.bound
    unfold addressSpace
    omega
  obtain ⟨xs, b, ys, hsplit, hscan, -⟩ := walk_spec
    (p := fun cur => decide (nodeSize h.mem cur < size) || nodeFree h.mem cur == 0)
    addressSpace bs [] hl.ne_nil hlen hl.start hl.tiles
  refine ⟨xs, b, ys, hsplit, ?_⟩
  rw [hl.head]
  exact hscan

/-- A node without a next one is the last block. -/
theorem Laid.last {h : Heap} {xs ys : List Block} {b : Block} (hl : Laid h (xs ++ b :: ys))
    (hlast : nodeNext h.mem (h.mallocStart + span xs) = 0) : ys = [] := by
  rw [(tiles_node hl.tiles).next] at hlast
  by_contra hne
  rw [if_neg (by simpa using hne)] at hlast
  have := hl.start
  omega

/-- A request of less than 1 MiB and its header. -/
theorem requested_word {size : Nat} (hmax : size < 2 ^ 20) : size + headerSize < addressSpace := by
  unfold headerSize addressSpace
  omega

/-- **`malloc_next_block`** on a tiling, at a node where the request can be placed. -/
theorem mallocNextBlock_placed {h h' : Heap} {bs : List Block} {size ptr : Nat}
    {frames : Bytes} (hl : Laid h bs) (hpos : 1 ≤ size) (hword : size + headerSize < addressSpace)
    (hok : Placeable h size) (hret : mallocNextBlock h size frames = some (ptr, h')) :
    Placed h h' bs ptr size := by
  unfold addressSpace at hword
  obtain ⟨xs, b, ys, hsplit, hscan⟩ := hl.scanned size
  subst hsplit
  have hnode := tiles_node hl.tiles
  have hbound := hl.bound
  rw [span_append, span_cons] at hbound
  have hfirst := scan_firstFit hscan
  have hfit := hok _ hfirst
  have hptr : u32 (h.mallocStart + span xs + headerSize)
      = h.mallocStart + span xs + headerSize := u32_eq (by omega)
  unfold mallocNextBlock at hret
  rw [if_neg (by omega), if_neg hl.head_size] at hret
  simp only [hscan, hptr] at hret
  rw [hnode.size] at hret hfit
  rw [u32_eq hword] at hret
  by_cases hexact : size = b.size
  · -- The node fits exactly.
    rw [if_pos hexact, Option.some.injEq, Prod.mk.injEq] at hret
    obtain ⟨rfl, rfl⟩ := hret
    refine ⟨rfl, xs, b, ys, [], rfl, hfirst, rfl, .exact hexact.symm,
      ⟨hl.start, hl.head, hl.virt, ?_, ?_, hl.fits, ?_⟩⟩
    · rw [hexact]
      exact setFree_tiles hl.tiles (by decide)
    · rw [← hl.pages, List.nil_append, span_append, span_append, span_cons, span_cons, hexact]
    · exact first_replace hl.first hpos
  · rw [if_neg hexact] at hret
    by_cases hlarge : b.size > size + headerSize
    · -- The node is split.
      rw [if_pos hlarge, Option.some.injEq, Prod.mk.injEq] at hret
      obtain ⟨rfl, rfl⟩ := hret
      refine ⟨rfl, xs, b, ys, [⟨b.size - size - headerSize, true⟩], rfl, hfirst, rfl,
        .split (by omega) (by omega), ⟨hl.start, hl.head, hl.virt,
          mallocSplit_tiles hl.tiles (by omega) hl.bound.le, ?_, hl.fits, ?_⟩⟩
      · rw [← hl.pages]
        simp only [span_append, span_cons, List.cons_append, List.nil_append]
        omega
      · exact first_replace hl.first hpos
    · -- The node is the last one, and grows.
      rw [if_neg hlarge] at hret
      obtain ⟨hlast, hroom⟩ := (hfit.resolve_left (Ne.symm hexact)).resolve_left hlarge
      obtain rfl := hl.last hlast
      cases hnum : numPages b.size size with
      | none =>
        rw [hnum] at hret
        cases hret
      | some n =>
        rw [hnum] at hret
        simp only [Option.some.injEq, Prod.mk.injEq] at hret
        obtain ⟨rfl, rfl⟩ := hret
        have hpages := hl.pages
        have hsum : b.size + pagesFor b.size size * pageSize < 4294967296 := by
          rw [Nat.add_mul, ← hpages, span_append, span_cons] at hroom
          unfold addressSpace at hroom
          omega
        obtain ⟨henough, -, hcnt⟩ := numPages_enough hsum (by omega) hnum
        have hroom : h.mallocStart + (h.totalMallocPages + n) * pageSize < addressSpace :=
          Nat.lt_of_le_of_lt (Nat.add_le_add_left (Nat.mul_le_mul_right _ (by omega)) _) hroom
        have hfits := hl.fits
        rw [Nat.add_mul] at hroom
        have hvirt : u32 (h.mallocVirtAddress + u32 (h.totalMallocPages * pageSize))
            = h.mallocStart + span (xs ++ [b]) := by
          unfold addressSpace at hfits
          rw [hl.virt, u32_eq (by omega : h.totalMallocPages * pageSize < 4294967296),
            u32_eq (by omega), hpages]
        have hgrown := growNode_tiles frames n hl.tiles (by
          unfold addressSpace at hroom
          omega)
        rw [← hvirt] at hgrown
        have hcount : u32 (h.totalMallocPages + n) = h.totalMallocPages + n := by
          apply u32_eq
          unfold addressSpace pageSize at hroom
          omega
        have hnewspan : span (xs ++ [⟨b.size + n * pageSize, b.free⟩])
            = (h.totalMallocPages + n) * pageSize := by
          rw [Nat.add_mul, ← hpages]
          simp only [span_append, span_cons, span_nil]
          omega
        refine ⟨rfl, xs, b, [], [⟨b.size + n * pageSize - size - headerSize, true⟩], rfl, hfirst,
          rfl, .grow rfl (Ne.symm hexact) (by omega), ⟨hl.start, hl.head, hl.virt, ?_, ?_, ?_, ?_⟩⟩
        · refine mallocSplit_tiles hgrown henough ?_
          rw [hnewspan, Nat.add_mul]
          omega
        · simp only [hcount]
          rw [← hnewspan]
          simp only [span_append, span_cons, span_nil, List.append_nil]
          omega
        · simp only [hcount]
          rw [Nat.add_mul]
          exact hroom
        · exact first_replace hl.first hpos

/-- The ranges of a tiling in which a block was cut: the new one, and every other one there
was. -/
theorem Cut.used (a : Nat) (xs : List Block) {b : Block} {ys zs : List Block} {size : Nat}
    (h : Cut b ys size zs) :
    (a + span xs + headerSize, size) ∈ used a (xs ++ ⟨size, false⟩ :: (zs ++ ys)) ∧
    ∀ r ∈ used a (xs ++ b :: ys), r.1 ≠ a + span xs + headerSize →
      r ∈ used a (xs ++ ⟨size, false⟩ :: (zs ++ ys)) := by
  cases h with
  | exact hsize =>
    have hspan : span [] + size = b.size := by rw [span_nil, Nat.zero_add, hsize]
    exact used_replace a xs ys [] hspan
  | split hsize =>
    refine used_replace a xs ys _ ?_
    simp only [span_cons, span_nil]
    omega
  | @grow n hlast =>
    subst hlast
    have hrep := used_replace a xs [] [⟨n, true⟩] (b := ⟨span [⟨n, true⟩] + size, b.free⟩) rfl
    refine ⟨hrep.1, fun r hr hne => hrep.2 r ?_ hne⟩
    simp only [used_append, Malloc.used, List.append_nil, List.mem_append] at hr ⊢
    rcases hr with hr | hr
    · exact Or.inl hr
    · split at hr
      · cases hr
      · obtain rfl := List.mem_singleton.mp hr
        exact absurd rfl hne

/-- **`malloc_next_block`** at a suitable node of a tiling. -/
theorem mallocNextBlock_allocated {s : Session} {bs : List Block} {size ptr : Nat}
    {frames : Bytes} {h' : Heap} (hl : Laid s.heap bs) (hpos : 1 ≤ size) (hmax : size < 2 ^ 20)
    (hok : Suitable s size) (hret : mallocNextBlock s.heap size frames = some (ptr, h')) :
    Allocated s.heap h' bs ptr size ∧ ∀ r ∈ s.live, r.1 ≠ ptr := by
  have hplaceable : Placeable s.heap size := fun cur hcur => (hok cur hcur).2
  obtain ⟨hstart, xs, b, ys, zs, rfl, hfirst, rfl, hcut, hl'⟩ :=
    mallocNextBlock_placed hl hpos (requested_word hmax) hplaceable hret
  obtain ⟨hnew, hold⟩ := hcut.used s.heap.mallocStart xs
  exact ⟨⟨hstart, _, hl', hnew, hold⟩, (hok _ hfirst).1⟩

/-! ## 4. The system calls keep the invariant -/

/-- `merge_free_blocks` after an operation changes nothing the program can see. -/
theorem Laid.merge {h : Heap} {bs : List Block} {m : Bytes} (hl : Laid h bs)
    (hm : mergeFreeBlocks h.mem h.mallocListHead = some m) :
    Laid { h with mem := m } (mergeBlocks bs) := by
  obtain ⟨m', hm', ht⟩ := mergeFreeBlocks_tiles hl.tiles hl.start hl.ne_nil hl.bound.le
  rw [hl.head, hm', Option.some.injEq] at hm
  subst hm
  refine ⟨hl.start, hl.head, hl.virt, ht, ?_, hl.fits, ?_⟩
  · rw [span_mergeBlocks, hl.pages]
  · obtain ⟨b, cs, rfl, hb⟩ := hl.first
    exact mergeBlocks_head hb

/-- `syscall_malloc` is `malloc_next_block` and a merge. -/
theorem syscallMalloc_merged {h h' : Heap} {bs : List Block} {size ptr : Nat} {frames : Bytes}
    (hl : Laid h bs) (hret : syscallMalloc h size frames = some (ptr, h')) :
    ∃ h₁, mallocNextBlock h size frames = some (ptr, h₁) ∧ h'.mallocStart = h₁.mallocStart ∧
      ∀ bs', Laid h₁ bs' → Laid h' (mergeBlocks bs') := by
  have hhead : h.mallocListHead ≠ 0 := by
    rw [hl.head]
    exact Nat.pos_iff_ne_zero.mp hl.start
  unfold syscallMalloc at hret
  rw [if_neg hhead] at hret
  cases hnext : mallocNextBlock h size frames with
  | none =>
    simp only [hnext] at hret
    cases hret
  | some r =>
    obtain ⟨p, h₁⟩ := r
    simp only [hnext] at hret
    obtain ⟨m, hm, heq⟩ := Option.map_eq_some_iff.mp hret
    obtain ⟨rfl, rfl⟩ := Prod.mk.inj heq
    exact ⟨h₁, rfl, rfl, fun _ hl' => hl'.merge hm⟩

/-- **What `malloc_free` does to a tiling**: the node of the pointer becomes free and the list is
merged, unless the pointer is none of the nodes before the last one. -/
theorem mallocFree_laid {h h' : Heap} {bs : List Block} {ptr : Nat} (hl : Laid h bs)
    (hret : mallocFree h ptr = some h') :
    (∃ xs b ys, bs = xs ++ b :: ys ∧ ys ≠ [] ∧ ptr = h.mallocStart + span xs + headerSize ∧
      h'.mallocStart = h.mallocStart ∧
      Laid h' (mergeBlocks (xs ++ ⟨b.size, true⟩ :: ys))) ∨
    (h' = h ∧ ∀ xs b ys, bs = xs ++ b :: ys → ys ≠ [] →
      ptr ≠ h.mallocStart + span xs + headerSize) := by
  have hlen : bs.length ≤ addressSpace := by
    have := length_le_span bs
    have := hl.bound
    unfold addressSpace
    omega
  obtain ⟨xs, b, ys, hsplit, hscan, hstop, hpassed⟩ := walk_spec
    (p := fun cur => u32 (cur + headerSize) != ptr) addressSpace bs [] hl.ne_nil hlen hl.start
    hl.tiles
  rw [List.nil_append] at hsplit
  subst hsplit
  have hnode := tiles_node hl.tiles
  have hbound := hl.bound
  rw [span_append, span_cons] at hbound
  have hscan : loop (fun cur => nodeNext h.mem cur != 0 && u32 (cur + headerSize) != ptr)
      (nodeNext h.mem) addressSpace h.mallocListHead = some (h.mallocStart + span xs) := by
    simpa only [hl.head, Bool.and_comm, span_nil, Nat.add_zero] using hscan
  unfold mallocFree at hret
  simp only [hscan, hnode.next] at hret
  by_cases hys : ys = []
  · -- The scan stopped at the last node, which is left as it is.
    subst hys
    rw [if_neg (by simp)] at hret
    refine Or.inr ⟨(Option.some.inj hret).symm, fun xs' c zs hat hzs => ?_⟩
    obtain ⟨post, d, rfl⟩ : ∃ post d, zs = post ++ [d] :=
      ⟨_, _, (List.dropLast_concat_getLast hzs).symm⟩
    have hxs : xs = xs' ++ c :: post := by
      have hcat : xs ++ [b] = (xs' ++ c :: post) ++ [d] := by simpa using hat
      exact (List.append_inj_left' hcat rfl)
    have hp := hpassed xs' c post hxs (Nat.zero_le _)
    rw [hxs, span_append, span_cons] at hbound
    rw [u32_eq (by omega)] at hp
    exact fun he => absurd he.symm (by simpa using hp)
  · -- The node of `ptr` becomes free, and the list is merged.
    have hat : h.mallocStart + span xs + headerSize = ptr := by
      have := hstop.resolve_right hys
      rw [u32_eq (by omega)] at this
      simpa using this
    have hne : (if ys.isEmpty then 0 else h.mallocStart + span xs + headerSize + b.size) ≠ 0 := by
      rw [if_neg (by simpa using hys)]
      have := hl.start
      omega
    rw [if_pos hne] at hret
    obtain ⟨m, hm, rfl⟩ := Option.map_eq_some_iff.mp hret
    have hfreed : Laid { h with mem := setFree h.mem (h.mallocStart + span xs) 1 }
        (xs ++ ⟨b.size, true⟩ :: ys) := by
      refine ⟨hl.start, hl.head, hl.virt, setFree_tiles hl.tiles (by decide), ?_, hl.fits, ?_⟩
      · rw [← hl.pages]
        simp only [span_append, span_cons]
      · cases xs with
        | nil =>
          obtain ⟨d, ds, heq, hd⟩ := hl.first
          obtain ⟨rfl, -⟩ := List.cons.inj heq
          exact ⟨_, _, rfl, hd⟩
        | cons x xs =>
          obtain ⟨d, ds, heq, hd⟩ := hl.first
          obtain ⟨rfl, -⟩ := List.cons.inj heq
          exact ⟨_, _, rfl, hd⟩
    exact Or.inl ⟨xs, b, ys, rfl, hys, hat.symm, rfl, hfreed.merge hm⟩

/-- **A suitable `syscall_malloc`** returns a range apart from all the others. -/
theorem syscallMalloc_holds {s : Session} {size ptr : Nat} {frames : Bytes} {h' : Heap}
    (hs : Holds s) (hpos : 1 ≤ size) (hmax : size < 2 ^ 20) (hok : Suitable s size)
    (hret : syscallMalloc s.heap size frames = some (ptr, h')) :
    Holds ⟨h', (ptr, size) :: s.live⟩ := by
  obtain ⟨⟨bs, hl, hused⟩, hnd⟩ := hs
  obtain ⟨h₁, hnext, hstart', hmerged⟩ := syscallMalloc_merged hl hret
  obtain ⟨⟨hstart, bs', hl', hnew, hold⟩, hfree⟩ :=
    mallocNextBlock_allocated hl hpos hmax hok hnext
  refine ⟨⟨mergeBlocks bs', hmerged bs' hl', fun r hr => ?_⟩, ?_⟩
  · rw [used_mergeBlocks]
    simp only [hstart', hstart]
    rcases List.mem_cons.mp hr with rfl | hr
    · exact hnew
    · exact hold r (hused r hr) (hfree r hr)
  · exact List.nodup_cons.mpr ⟨fun hmem => hfree _ hmem rfl, hnd⟩

/-- **`syscall_free`** of a held pointer takes back at most that range. -/
theorem syscallFree_holds {s : Session} {ptr : Nat} {h' : Heap} (hs : Holds s)
    (hret : syscallFree s.heap ptr = some h') :
    Holds ⟨h', s.live.filter fun r => r.1 ≠ ptr⟩ := by
  obtain ⟨⟨bs, hl, hused⟩, hnd⟩ := hs
  have hkeep : ∀ r ∈ s.live.filter (fun r => r.1 ≠ ptr), r ∈ s.live ∧ r.1 ≠ ptr := by
    intro r hr
    obtain ⟨hr, hne⟩ := List.mem_filter.mp hr
    exact ⟨hr, by simpa using hne⟩
  rcases mallocFree_laid hl hret with ⟨xs, b, ys, rfl, -, hat, hstart, hl'⟩ | ⟨rfl, -⟩
  · refine ⟨⟨_, hl', fun r hr => ?_⟩, hnd.filter _⟩
    obtain ⟨hr, hrne⟩ := hkeep r hr
    have hr := hused r hr
    simp only [hstart]
    rw [used_mergeBlocks]
    simp only [used_append, used, if_true, List.nil_append, List.mem_append] at hr ⊢
    rcases hr with hr | hr | hr
    · exact Or.inl hr
    · split at hr
      · cases hr
      · obtain rfl := List.mem_singleton.mp hr
        exact absurd hat.symm hrne
    · exact Or.inr hr
  · exact ⟨⟨bs, hl, fun r hr => hused r (hkeep r hr).1⟩, hnd.filter _⟩

/-! ## 5. Whole sessions -/

/-- The heap of `init_malloc`, nothing held. -/
def initial (mem frames : Bytes) : Session := ⟨initMalloc mem frames, []⟩

/-- `init_malloc` lays out one free block of a page. -/
theorem initMalloc_laid (mem frames : Bytes) : Laid (initMalloc mem frames) [⟨4084, true⟩] := by
  have hpages : (initMalloc mem frames).totalMallocPages * pageSize = 4096 := by
    simp only [initMalloc, pageSize]
  have hstart : (initMalloc mem frames).mallocStart = 0x400000 := rfl
  refine ⟨?_, rfl, rfl, ⟨?_, trivial⟩, ?_, ?_, ⟨_, _, rfl, by decide⟩⟩
  · exact hstart ▸ (by decide)
  · have hnode : NodeAt (writeNode (mapPage mem frames 0x400000) 0x400000 4084 1 0) 0x400000
        ⟨4084, true⟩ 0 := nodeAt_writeNode (by omega) (by omega) (by omega)
    exact hnode
  · exact hpages ▸ (by decide)
  · show (initMalloc mem frames).mallocStart + (initMalloc mem frames).totalMallocPages * pageSize
      < addressSpace
    rw [hpages, hstart]
    decide

theorem initial_holds (mem frames : Bytes) : Holds (initial mem frames) :=
  ⟨⟨_, initMalloc_laid mem frames, fun _ hr => absurd hr List.not_mem_nil⟩, List.nodup_nil⟩

/-- **Live heap allocations never overlap**, in every session whose `malloc` calls are
`Suitable`. -/
theorem sessions_sound (mem frames : Bytes) (s : Session)
    (h : Reach Step CallOk (initial mem frames) s) : Sound s := by
  refine (h.invariant (initial_holds mem frames) ?_).sound
  intro s c s' hs hok hstep
  cases hstep with
  | malloc hpos hmax hret => exact syscallMalloc_holds hs hpos hmax hok hret
  | free _ hret => exact syscallFree_holds hs hret

/-! ## 6. Two requests of one size -/

/-- A heap of one node answers a request of that node's size with it, free or not. -/
theorem syscallMalloc_only {h : Heap} {b : Block} (hl : Laid h [b]) (frames : Bytes) :
    ∃ h', syscallMalloc h b.size frames = some (h.mallocStart + headerSize, h') ∧
      Laid h' [⟨b.size, false⟩] ∧ h'.mallocStart = h.mallocStart := by
  obtain ⟨hnode, -⟩ := hl.tiles
  have hbound := hl.bound
  rw [span_cons, span_nil] at hbound
  have hpos : 0 < b.size := by
    obtain ⟨_, _, heq, hb⟩ := hl.first
    obtain ⟨rfl, -⟩ := List.cons.inj heq
    exact hb
  have hlast : nodeNext h.mem h.mallocStart = 0 := hnode.next
  have hscan : scan h.mem b.size h.mallocListHead = some h.mallocStart := by
    rw [hl.head]
    exact loop_done (by simp [hlast])
  have hnext : mallocNextBlock h b.size frames
      = some (h.mallocStart + headerSize, { h with mem := setFree h.mem h.mallocStart 0 }) := by
    have hfull : nodeSize h.mem h.mallocListHead ≠ 0 := by
      rw [hl.head, hnode.size]
      omega
    unfold mallocNextBlock
    rw [if_neg (by omega), if_neg hfull]
    simp only [hscan]
    rw [hnode.size, if_pos rfl, u32_eq (by omega)]
  have hused : Laid { h with mem := setFree h.mem h.mallocStart 0 } [⟨b.size, false⟩] := by
    refine ⟨hl.start, hl.head, hl.virt, ?_, hl.pages, hl.fits, ⟨_, _, rfl, hpos⟩⟩
    have htiles : Tiles h.mem h.mallocStart ([] ++ b :: []) := hl.tiles
    exact setFree_tiles htiles (by decide)
  obtain ⟨m, hm, ht⟩ := mergeFreeBlocks_tiles hused.tiles hl.start hused.ne_nil hused.bound.le
  refine ⟨{ h with mem := m }, ?_, ⟨hl.start, hl.head, hl.virt, ht, hl.pages, hl.fits,
    ⟨_, _, rfl, hpos⟩⟩, rfl⟩
  have hhead : h.mallocListHead ≠ 0 := by
    rw [hl.head]
    exact Nat.pos_iff_ne_zero.mp hl.start
  unfold syscallMalloc
  rw [if_neg hhead]
  simp only [hnext, hl.head, hm, Option.map_some]

/-- **Two live allocations can be the same bytes**: after two requests of 4084 bytes, the size of
the node of `init_malloc`, both pointers are `0x40000C`. -/
theorem sound_fails : ¬ ∀ (mem frames : Bytes) (s : Session),
    Reach Step (fun _ _ => True) (initial mem frames) s → Sound s := by
  intro hall
  let zeros : Bytes := fun _ => 0
  obtain ⟨h₁, hret₁, hl₁, hstart₁⟩ := syscallMalloc_only (initMalloc_laid zeros zeros) zeros
  obtain ⟨h₂, hret₂, -, -⟩ := syscallMalloc_only hl₁ zeros
  rw [hstart₁] at hret₂
  have hrun : Reach Step (fun _ _ => True) (initial zeros zeros) ⟨h₁, [(_, 4084)]⟩ :=
    .tail .refl trivial (.malloc (by decide) (by decide) hret₁)
  have hsound := hall _ _ _ (hrun.tail trivial (.malloc (by decide) (by decide) hret₂))
  have hapart := (List.pairwise_cons.mp hsound.disjoint).1 _ (List.mem_singleton.mpr rfl)
  rcases hapart with hle | hle
  · simp only [] at hle
    omega
  · simp only [] at hle
    omega

/-! ## 7. A block freed and split -/

/-- First fit ends where the scan does. -/
theorem FirstFit.scanned {m : Bytes} {size n cur : Nat} (h : FirstFit m size n cur) :
    ∀ {fuel r : Nat}, loop
      (fun cur => (decide (nodeSize m cur < size) || nodeFree m cur == 0) && nodeNext m cur != 0)
      (nodeNext m) fuel n = some r → cur = r := by
  induction h with
  | fits hfree hsize =>
    intro fuel r hr
    rw [loop_done (by simp [hfree, hsize])] at hr
    exact Option.some.inj hr
  | last hnext =>
    intro fuel r hr
    rw [loop_done (by simp [hnext])] at hr
    exact Option.some.inj hr
  | next hno hnext _ ih =>
    intro fuel r hr
    have hgo := hno.symm
    cases fuel with
    | zero => simp [loop, hgo, hnext] at hr
    | succ fuel =>
      rw [loop_turn (by simp [hgo, hnext])] at hr
      exact ih hr

/-- Memory and frames of zeros. -/
def zeros : Bytes := fun _ => 0

/-- The heap left by a request. -/
def Heap.asked (h : Heap) (size : Nat) : Heap := ((syscallMalloc h size zeros).getD (0, h)).2

/-- The heap left by a release. -/
def Heap.released (h : Heap) (ptr : Nat) : Heap := (syscallFree h ptr).getD h

theorem Heap.asked_eq {h : Heap} {size ptr : Nat}
    (hret : (syscallMalloc h size zeros).map Prod.fst = some ptr) :
    syscallMalloc h size zeros = some (ptr, h.asked size) := by
  obtain ⟨r, hr, rfl⟩ := Option.map_eq_some_iff.mp hret
  rw [Heap.asked, hr]
  rfl

theorem Heap.released_eq {h : Heap} {ptr : Nat} (hret : (syscallFree h ptr).isSome) :
    syscallFree h ptr = some (h.released ptr) := by
  obtain ⟨r, hr⟩ := Option.isSome_iff_exists.mp hret
  rw [Heap.released, hr]
  rfl

/-- The heap at boot, then with 100 and 200 bytes handed out, then with the 100 returned. -/
def bootHeap : Heap := initMalloc zeros zeros

def twoHeap : Heap := (bootHeap.asked 100).asked 200

def freedHeap : Heap := twoHeap.released 0x40000C

/-- What the four calls of a session return, and the node where each request stops. -/
theorem freedHeap_calls :
    syscallMalloc bootHeap 100 zeros = some (0x40000C, bootHeap.asked 100) ∧
    syscallMalloc (bootHeap.asked 100) 200 zeros = some (0x40007C, twoHeap) ∧
    syscallFree twoHeap 0x40000C = some freedHeap ∧
    syscallMalloc freedHeap 40 zeros = some (0x40000C, freedHeap.asked 40) :=
  ⟨Heap.asked_eq (by decide +kernel), Heap.asked_eq (by decide +kernel),
    Heap.released_eq (by decide +kernel), Heap.asked_eq (by decide +kernel)⟩

/-- Each request stops at a node that can be split. -/
theorem freedHeap_splits :
    (∀ cur, FirstFit bootHeap.mem 100 bootHeap.mallocListHead cur →
      cur = 0x400000 ∧ 100 + headerSize < nodeSize bootHeap.mem cur) ∧
    (∀ cur, FirstFit (bootHeap.asked 100).mem 200 (bootHeap.asked 100).mallocListHead cur →
      cur = 0x400070 ∧ 200 + headerSize < nodeSize (bootHeap.asked 100).mem cur) ∧
    ∀ cur, FirstFit freedHeap.mem 40 freedHeap.mallocListHead cur →
      cur = 0x400000 ∧ 40 + headerSize < nodeSize freedHeap.mem cur := by
  refine ⟨fun cur hcur => ?_, fun cur hcur => ?_, fun cur hcur => ?_⟩
  · obtain rfl := hcur.scanned
      (by decide +kernel : scan bootHeap.mem 100 bootHeap.mallocListHead = some 0x400000)
    exact ⟨rfl, by decide +kernel⟩
  · obtain rfl := hcur.scanned (by decide +kernel :
      scan (bootHeap.asked 100).mem 200 (bootHeap.asked 100).mallocListHead = some 0x400070)
    exact ⟨rfl, by decide +kernel⟩
  · obtain rfl := hcur.scanned
      (by decide +kernel : scan freedHeap.mem 40 freedHeap.mallocListHead = some 0x400000)
    exact ⟨rfl, by decide +kernel⟩

/-- The theorem where the block freed is split for a smaller request. -/
theorem sessions_sound_split :
    syscallMalloc freedHeap 40 zeros = some (0x40000C, freedHeap.asked 40) ∧
    Sound ⟨freedHeap.asked 40, [(0x40000C, 40), (0x40007C, 200)]⟩ := by
  obtain ⟨hret₁, hret₂, hfree, hret₃⟩ := freedHeap_calls
  obtain ⟨hsplit₁, hsplit₂, hsplit₃⟩ := freedHeap_splits
  have hok₁ : CallOk (initial zeros zeros) (.malloc 100 zeros) := fun cur hcur =>
    ⟨fun r hr => absurd hr List.not_mem_nil, Or.inr (Or.inl (hsplit₁ cur hcur).2)⟩
  have hok₂ : CallOk ⟨bootHeap.asked 100, [(0x40000C, 100)]⟩ (.malloc 200 zeros) := by
    intro cur hcur
    obtain ⟨rfl, hlarge⟩ := hsplit₂ cur hcur
    exact ⟨by decide, Or.inr (Or.inl hlarge)⟩
  have hok₃ : CallOk ⟨freedHeap, [(0x40007C, 200)]⟩ (.malloc 40 zeros) := by
    intro cur hcur
    obtain ⟨rfl, hlarge⟩ := hsplit₃ cur hcur
    exact ⟨by decide, Or.inr (Or.inl hlarge)⟩
  have htwo : Reach Step CallOk (initial zeros zeros)
      ⟨twoHeap, [(0x40007C, 200), (0x40000C, 100)]⟩ :=
    (Reach.refl.tail hok₁ (.malloc (by decide) (by decide) hret₁)).tail hok₂
      (.malloc (by decide) (by decide) hret₂)
  have hfreed : Reach Step CallOk (initial zeros zeros) ⟨freedHeap, [(0x40007C, 200)]⟩ :=
    @Reach.tail _ _ _ _ _ _ _ (.free 0x40000C) htwo trivial
      (.free (List.mem_cons_of_mem _ List.mem_cons_self) hfree)
  exact ⟨hret₃, sessions_sound zeros zeros _
    (hfreed.tail hok₃ (.malloc (by decide) (by decide) hret₃))⟩

end AmateurOs.Malloc
