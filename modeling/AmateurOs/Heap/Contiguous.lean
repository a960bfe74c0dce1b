/-
# The list tiles the heap

From `init_malloc` on, the headers reachable from `malloc_list_head` follow each other without
gaps from `malloc_start` to the end of the mapped pages (`Contiguous`), as long as every request
can be placed where the first-fit scan stops (`Placeable`): that node has the exact size, or is
split, or is the last one.

A free node that is larger than the request by at most a header is grown in place, although the
new pages are mapped behind the last node (`contiguous_fails`: a request of 88 bytes that meets a
free node of 100).  Any pointer may be freed.
-/
import Mathlib.Data.List.Induction
import AmateurOs.Heap.Safety

namespace AmateurOs.Malloc

open AmateurOs.Lib

/-! ## 1. The property and the runs -/

/-- **The list tiles the heap.** -/
structure Contiguous (h : Heap) : Prop where
  head : h.mallocListHead = h.mallocStart
  next : ∀ n, Listed h.mem h.mallocListHead n → nodeNext h.mem n ≠ 0 →
    nodeNext h.mem n = n + headerSize + nodeSize h.mem n
  last : ∀ n, Listed h.mem h.mallocListHead n → nodeNext h.mem n = 0 →
    n + headerSize + nodeSize h.mem n = h.mallocStart + h.totalMallocPages * pageSize
  ends : ∃ n, Listed h.mem h.mallocListHead n ∧ nodeNext h.mem n = 0

/-- The system calls that return, on the heap alone. -/
inductive Returns : Heap → Call → Heap → Prop
  | malloc {h h' : Heap} {size ptr : Nat} {frames : Bytes} (hpos : 1 ≤ size)
      (hmax : size < 2 ^ 20) (hret : syscallMalloc h size frames = some (ptr, h')) :
      Returns h (.malloc size frames) h'
  | free {h h' : Heap} {ptr : Nat} (hret : syscallFree h ptr = some h') : Returns h (.free ptr) h'

/-- The condition on a call: a request can be placed. -/
def Fits (h : Heap) : Call → Prop
  | .malloc size _ => Placeable h size
  | .free _ => True

/-! ## 2. A tiling is contiguous -/

/-- Every node of a tiling is on the list. -/
theorem listed_node {m : Bytes} {a : Nat} (ha : 0 < a) : ∀ (xs : List Block) {b : Block}
    {ys : List Block}, Tiles m a (xs ++ b :: ys) → Listed m a (a + span xs) := by
  intro xs
  induction xs using List.reverseRecOn with
  | nil => exact fun _ => .head
  | append_singleton xs c ih =>
    intro b ys h
    have hsplit : xs ++ [c] ++ b :: ys = xs ++ c :: b :: ys := by simp
    rw [hsplit] at h
    have hnext : nodeNext m (a + span xs) = a + span (xs ++ [c]) := by
      rw [(tiles_node h).next, if_neg (by simp), span_append, span_cons, span_nil]
      omega
    rw [← hnext]
    refine .next (ih h) ?_
    rw [hnext]
    omega

theorem Laid.contiguous {h : Heap} {bs : List Block} (hl : Laid h bs) : Contiguous h := by
  refine ⟨hl.head, fun n hn hnext => ?_, fun n hn hnext => ?_, ?_⟩
  · rw [hl.head] at hn
    obtain ⟨xs, b, ys, rfl, rfl⟩ := hn.block hl.tiles hl.ne_nil
    have hnode := tiles_node hl.tiles
    rw [hnode.next] at hnext ⊢
    cases ys with
    | nil => exact absurd rfl hnext
    | cons c ys => rw [hnode.size, if_neg (by simp)]
  · rw [hl.head] at hn
    obtain ⟨xs, b, ys, rfl, rfl⟩ := hn.block hl.tiles hl.ne_nil
    have hnode := tiles_node hl.tiles
    rw [hnode.next] at hnext
    cases ys with
    | nil =>
      rw [hnode.size, ← hl.pages, span_append, span_cons, span_nil]
      omega
    | cons c ys =>
      rw [if_neg (by simp)] at hnext
      have := hl.start
      omega
  · obtain ⟨xs, b, rfl⟩ : ∃ xs b, bs = xs ++ [b] :=
      ⟨_, _, (List.dropLast_concat_getLast hl.ne_nil).symm⟩
    refine ⟨h.mallocStart + span xs, ?_, ?_⟩
    · rw [hl.head]
      exact listed_node hl.start xs hl.tiles
    · rw [(tiles_node hl.tiles).next]
      rfl

/-! ## 3. Whole runs -/

/-- The invariant: the headers are some tiling of the pages. -/
def Tiled (h : Heap) : Prop := ∃ bs, Laid h bs

/-- One call that fits keeps the tiling. -/
theorem returns_tiled {h h' : Heap} {c : Call} (ht : Tiled h) (hok : Fits h c)
    (hret : Returns h c h') : Tiled h' := by
  obtain ⟨bs, hl⟩ := ht
  cases hret with
  | malloc hpos hmax hret =>
    obtain ⟨h₁, hnext, -, hmerged⟩ := syscallMalloc_merged hl hret
    obtain ⟨-, xs, b, ys, zs, -, -, -, -, hl'⟩ :=
      mallocNextBlock_placed hl hpos (requested_word hmax) hok hnext
    exact ⟨_, hmerged _ hl'⟩
  | free hret =>
    rcases mallocFree_laid hl hret with ⟨xs, b, ys, -, -, -, -, hl'⟩ | ⟨rfl, -⟩
    · exact ⟨_, hl'⟩
    · exact ⟨bs, hl⟩

/-- **The heap list tiles the heap** after every run whose requests can be placed. -/
theorem runs_contiguous (mem frames : Bytes) (h : Heap)
    (hrun : Reach Returns Fits (initMalloc mem frames) h) : Contiguous h := by
  have hstart : Tiled (initMalloc mem frames) := ⟨_, initMalloc_laid mem frames⟩
  obtain ⟨bs, hl⟩ := hrun.invariant hstart fun _ _ _ ht hok hret => returns_tiled ht hok hret
  exact hl.contiguous

/-- The theorem where the block freed is split for a smaller request. -/
theorem runs_contiguous_split : Contiguous (freedHeap.asked 40) ∧
    nodeNext (freedHeap.asked 40).mem 0x400000 = 0x400034 ∧
    nodeNext (freedHeap.asked 40).mem 0x400034 = 0x400070 := by
  obtain ⟨hret₁, hret₂, hfree, hret₃⟩ := freedHeap_calls
  obtain ⟨hsplit₁, hsplit₂, hsplit₃⟩ := freedHeap_splits
  have hok₁ : Fits bootHeap (.malloc 100 zeros) := fun cur hcur =>
    Or.inr (Or.inl (hsplit₁ cur hcur).2)
  have hok₂ : Fits (bootHeap.asked 100) (.malloc 200 zeros) := fun cur hcur =>
    Or.inr (Or.inl (hsplit₂ cur hcur).2)
  have hok₃ : Fits freedHeap (.malloc 40 zeros) := fun cur hcur =>
    Or.inr (Or.inl (hsplit₃ cur hcur).2)
  have hfreed : Reach Returns Fits bootHeap freedHeap :=
    @Reach.tail _ _ _ _ _ _ _ (.free 0x40000C)
      ((Reach.refl.tail hok₁ (.malloc (by decide) (by decide) hret₁)).tail hok₂
        (.malloc (by decide) (by decide) hret₂)) trivial (.free hfree)
  refine ⟨runs_contiguous zeros zeros _
    (hfreed.tail hok₃ (.malloc (by decide) (by decide) hret₃)), ?_⟩
  decide +kernel

/-! ## 4. Calls that return -/

/-- The page count of the growing branch is found while it fits a `uint8_t`. -/
theorem numPages_some {curSize size : Nat} (hsmall : curSize ≤ size + headerSize)
    (hsize : size + headerSize ≤ 255 * pageSize) : ∃ n, numPages curSize size = some n := by
  have hturn : ∀ n, n ≤ 255 →
      decide (u32 (curSize + n * pageSize) < u32 (size + headerSize)) = true →
      u8 (n + 1) ≤ 255 ∧ 255 - u8 (n + 1) < 255 - n := by
    intro n hn hcond
    have hlt := of_decide_eq_true hcond
    unfold headerSize pageSize u32 at *
    unfold u8
    omega
  exact loop_some (fun n => 255 - n) hturn (by decide) (by decide)

/-- A request that can be placed is answered. -/
theorem syscallMalloc_returns {h : Heap} {bs : List Block} {size : Nat} (frames : Bytes)
    (hl : Laid h bs) (hpos : 1 ≤ size) (hmax : size < 2 ^ 20) (hok : Placeable h size)
    (hsize : size + headerSize ≤ 255 * pageSize) :
    ∃ ptr h', syscallMalloc h size frames = some (ptr, h') := by
  obtain ⟨xs, b, ys, hsplit, hscan⟩ := hl.scanned size
  have hnext : ∃ r, mallocNextBlock h size frames = some r := by
    unfold mallocNextBlock
    rw [if_neg (by omega), if_neg hl.head_size]
    simp only [hscan]
    split
    · exact ⟨_, rfl⟩
    · split
      · exact ⟨_, rfl⟩
      · next hlarge =>
        rw [u32_eq (by unfold headerSize; omega)] at hlarge
        obtain ⟨n, hn⟩ := numPages_some (Nat.not_lt.mp hlarge) hsize
        rw [hn]
        exact ⟨_, rfl⟩
  obtain ⟨⟨ptr, h₁⟩, hnext⟩ := hnext
  obtain ⟨-, xs, b, ys, zs, -, -, -, -, hl₁⟩ :=
    mallocNextBlock_placed hl hpos (requested_word hmax) hok hnext
  obtain ⟨m, hm, -⟩ := mergeFreeBlocks_tiles hl₁.tiles hl₁.start hl₁.ne_nil hl₁.bound.le
  have hlist : h.mallocListHead ≠ 0 := by
    rw [hl.head]
    exact Nat.pos_iff_ne_zero.mp hl.start
  refine ⟨ptr, { h₁ with mem := m }, ?_⟩
  unfold syscallMalloc
  rw [if_neg hlist]
  simp only [hnext, hl₁.head, hm, Option.map_some]

/-- Every free returns. -/
theorem syscallFree_returns {h : Heap} {bs : List Block} (ptr : Nat) (hl : Laid h bs) :
    ∃ h', syscallFree h ptr = some h' := by
  have hlen : bs.length ≤ addressSpace := by
    have := length_le_span bs
    have := hl.bound
    unfold addressSpace
    omega
  obtain ⟨xs, b, ys, hsplit, hscan, -⟩ := walk_spec
    (p := fun cur => u32 (cur + headerSize) != ptr) addressSpace bs [] hl.ne_nil hlen hl.start
    hl.tiles
  rw [List.nil_append] at hsplit
  subst hsplit
  have hscan : loop (fun cur => nodeNext h.mem cur != 0 && u32 (cur + headerSize) != ptr)
      (nodeNext h.mem) addressSpace h.mallocListHead = some (h.mallocStart + span xs) := by
    simpa only [hl.head, Bool.and_comm, span_nil, Nat.add_zero] using hscan
  have hspan : span (xs ++ ⟨b.size, true⟩ :: ys) = span (xs ++ b :: ys) := by
    simp only [span_append, span_cons]
  obtain ⟨m, hm, -⟩ := mergeFreeBlocks_tiles
    (setFree_tiles hl.tiles (by decide : (1 : Nat) < 4294967296)) hl.start (by simp)
    (hspan ▸ hl.bound.le)
  unfold syscallFree mallocFree
  simp only [hscan]
  split
  · rw [hl.head, hm]
    exact ⟨_, rfl⟩
  · exact ⟨h, rfl⟩

/-! ## 5. A middle node that is too small by a header -/

/-- A turn of the merge at two nodes that are not both free. -/
theorem mergeTurn_skip {m : Bytes} {cur : Nat}
    (h : nodeFree m cur = 0 ∨ nodeFree m (nodeNext m cur) = 0) :
    mergeTurn (m, cur) = (m, nodeNext m cur) := by
  have hnot : ¬ (nodeFree m cur ≠ 0 ∧ nodeFree m (nodeNext m cur) ≠ 0) := by
    rcases h with h | h
    · exact fun hc => hc.1 h
    · exact fun hc => hc.2 h
  unfold mergeTurn
  simp only [if_neg hnot]

/-- The headers after a request that is a header smaller than the first node, which is free: the
pages are added to that node, and what is left of it is one page, with no room behind its
header. -/
structure Cramped (m : Bytes) (a size : Nat) (c d : Block) : Prop where
  given : NodeAt m a ⟨size, false⟩ (a + headerSize + size)
  rest : NodeAt m (a + headerSize + size) ⟨pageSize, true⟩ (a + headerSize + size + headerSize)
  used : NodeAt m (a + headerSize + size + headerSize) c
    (a + headerSize + size + headerSize + headerSize + c.size)
  last : NodeAt m (a + headerSize + size + headerSize + headerSize + c.size) d 0

/-- Merging leaves them as they are, when the node behind is used. -/
theorem Cramped.merge {m : Bytes} {a size : Nat} {c d : Block} (h : Cramped m a size c d)
    (ha : 0 < a) (hc : c.free = false) : mergeFreeBlocks m a = some m := by
  have hgiven : nodeFree m a = 0 := by
    by_contra hne
    exact absurd (h.given.free.mp hne) (by simp)
  have hused : nodeFree m (a + headerSize + size + headerSize) = 0 := by
    by_contra hne
    exact absurd (h.used.free.mp hne) (by simp [hc])
  have hgo : ∀ n next : Nat, 0 < n → 0 < next → nodeNext m n = next →
      (n != 0 && nodeNext m n != 0) = true := by
    intro n next hn hnext he
    rw [he, Bool.and_eq_true, bne_iff_ne, bne_iff_ne]
    omega
  have hturns : addressSpace = 4294967293 + 1 + 1 + 1 := by decide
  unfold mergeFreeBlocks
  rw [hturns, loop_turn, mergeTurn_skip (Or.inl hgiven), h.given.next, loop_turn,
    mergeTurn_skip (Or.inr (h.rest.next.symm ▸ hused)), h.rest.next, loop_turn,
    mergeTurn_skip (Or.inl hused), h.used.next, loop_done]
  · rfl
  · simp [h.last.next]
  · exact hgo _ _ (by omega) (by omega) h.used.next
  · exact hgo _ _ (by omega) (by omega) h.rest.next
  · exact hgo _ _ ha (by omega) h.given.next

/-- **The request that cramps the list.** -/
theorem syscallMalloc_cramped {h : Heap} {size : Nat} {c d : Block} (frames : Bytes)
    (hl : Laid h [⟨size + headerSize, true⟩, c, d]) (hc : c.free = false) (hpos : 1 ≤ size)
    (hroom : h.mallocStart + (h.totalMallocPages + 1) * pageSize < addressSpace) :
    ∃ h', syscallMalloc h size frames = some (h.mallocStart + headerSize, h') ∧
      h'.mallocListHead = h'.mallocStart ∧ Cramped h'.mem h'.mallocStart size c d := by
  have hstart := hl.start
  have hbound := hl.bound
  have hpages := hl.pages
  have hfits := hl.fits
  have hspan : span [⟨size + headerSize, true⟩, c, d] =
      headerSize + (size + headerSize) + (headerSize + c.size + (headerSize + d.size)) := by
    simp only [span_cons, span_nil]
    omega
  have hsmall : size + headerSize + pageSize < 4294967296 := by
    rw [Nat.add_mul] at hroom
    unfold addressSpace at hroom
    omega
  obtain ⟨hfirst, -⟩ := hl.tiles
  rw [if_neg (by simp)] at hfirst
  -- the scan stops at the first node, and one page is enough
  have hscan : scan h.mem size h.mallocListHead = some h.mallocStart := by
    rw [hl.head]
    refine loop_done ?_
    have hfree : nodeFree h.mem h.mallocStart ≠ 0 := hfirst.free.mpr rfl
    have hlarge : ¬ nodeSize h.mem h.mallocStart < size := by
      rw [hfirst.size]
      simp only
      omega
    simp [hfree, hlarge]
  have hone : numPages (size + headerSize) size = some 1 := by
    refine loop_done ?_
    rw [Nat.one_mul, u32_eq hsmall, u32_eq (by omega), decide_eq_false_iff_not]
    omega
  have hvirt : u32 (h.mallocVirtAddress + u32 (h.totalMallocPages * pageSize)) =
      h.mallocStart + span [⟨size + headerSize, true⟩, c, d] := by
    unfold addressSpace at hfits
    rw [hl.virt, u32_eq (n := h.totalMallocPages * pageSize) (by omega), u32_eq (by omega), hpages]
  -- the page is mapped, the first node grows, and is split
  let virt := h.mallocStart + span [⟨size + headerSize, true⟩, c, d]
  let m₁ := mapPage h.mem frames virt
  let m₂ := setSize m₁ h.mallocStart (size + headerSize + pageSize)
  have ht₁ : Tiles m₁ h.mallocStart [⟨size + headerSize, true⟩, c, d] :=
    hl.tiles.frame (same_mapPage (Nat.le_refl _))
  obtain ⟨hfirst₁, hsecond₁, hthird₁, -⟩ := ht₁
  rw [if_neg (by simp)] at hfirst₁ hsecond₁
  have hgrow : growNode frames h.mallocStart 1 h.mem virt = m₂ := by
    have hgrown : growNode frames h.mallocStart 1 h.mem virt =
        setSize m₁ h.mallocStart (u32 (nodeSize m₁ h.mallocStart + pageSize)) := rfl
    rw [hgrown, hfirst₁.size, u32_eq hsmall]
  have hn : u32 (h.mallocStart + size + headerSize) = h.mallocStart + headerSize + size := by
    rw [u32_eq (by omega)]
    omega
  have hsize₂ : nodeSize m₂ h.mallocStart = size + headerSize + pageSize := by
    rw [nodeSize_setSize, u32_eq hsmall]
  have hnext₂ : nodeNext m₂ h.mallocStart = h.mallocStart + headerSize + (size + headerSize) := by
    rw [nodeNext_setSize, hfirst₁.next]
  have hrest : sub32 (sub32 (size + headerSize + pageSize) size) headerSize = pageSize := by
    rw [sub32_eq hsmall (by omega), sub32_eq (by omega) (by omega)]
    omega
  let m₃ := writeNode (writeNode m₂ (h.mallocStart + headerSize + size) pageSize 1
    (h.mallocStart + headerSize + (size + headerSize))) h.mallocStart size 0
    (h.mallocStart + headerSize + size)
  have hsplit : mallocSplit m₂ h.mallocStart size = m₃ := by
    rw [mallocSplit_eq hn (by omega), hsize₂, hnext₂, hrest]
  have hrestAddr : h.mallocStart + headerSize + (size + headerSize) =
      h.mallocStart + headerSize + size + headerSize := by omega
  -- the headers behind the new one are as they were
  have hbehind : Same m₁ m₃ (h.mallocStart + headerSize + size + headerSize) virt :=
    ((same_setSize (Or.inl (by omega))).trans (same_writeNode (Or.inl (by omega)))).trans
      (same_writeNode (Or.inl (by omega)))
  have hcramped : Cramped m₃ h.mallocStart size c d := by
    refine ⟨nodeAt_writeNode (by omega) (by decide) (by omega), ?_, ?_, ?_⟩
    · have hnew : NodeAt (writeNode m₂ (h.mallocStart + headerSize + size) pageSize 1
          (h.mallocStart + headerSize + (size + headerSize))) (h.mallocStart + headerSize + size)
          ⟨pageSize, true⟩ (h.mallocStart + headerSize + (size + headerSize)) :=
        nodeAt_writeNode (by decide) (by decide) (by omega)
      rw [hrestAddr] at hnew
      exact hnew.frame (same_writeNode (Or.inl (by omega)))
    · rw [hrestAddr] at hsecond₁
      exact hsecond₁.frame (hbehind.mono (by omega) (by omega))
    · rw [hrestAddr] at hthird₁
      exact hthird₁.frame (hbehind.mono (by omega) (by omega))
  have hcount : u32 (h.totalMallocPages + 1) = h.totalMallocPages + 1 := by
    unfold addressSpace pageSize at hroom
    exact u32_eq (by omega)
  have hhead : h.mallocListHead ≠ 0 ∧ nodeSize h.mem h.mallocListHead ≠ 0 := by
    rw [hl.head, hfirst.size]
    simp only
    omega
  refine ⟨{ h with mem := m₃, totalMallocPages := h.totalMallocPages + 1 }, ?_, hl.head,
    hcramped⟩
  have hnext : mallocNextBlock h size frames = some (h.mallocStart + headerSize,
      { h with mem := m₃, totalMallocPages := h.totalMallocPages + 1 }) := by
    have hdiff : ¬ size = size + headerSize := by
      unfold headerSize
      omega
    unfold mallocNextBlock
    rw [if_neg (by omega), if_neg hhead.2]
    simp only [hscan, hfirst.size]
    rw [if_neg hdiff, u32_eq (n := size + headerSize) (by omega),
      if_neg (Nat.lt_irrefl _), hone]
    simp only [hvirt]
    rw [hgrow, hsplit, hcount, u32_eq (n := h.mallocStart + headerSize) (by omega)]
  unfold syscallMalloc
  rw [if_neg hhead.1]
  simp only [hnext, hl.head, hcramped.merge hstart hc, Option.map_some]

/-- A list with such headers does not tile the heap. -/
theorem Cramped.not_contiguous {h : Heap} {size : Nat} {c d : Block}
    (hc : Cramped h.mem h.mallocStart size c d) (hhead : h.mallocListHead = h.mallocStart) :
    ¬ Contiguous h := by
  intro hcon
  have hgiven : nodeNext h.mem h.mallocListHead ≠ 0 := by
    rw [hhead, hc.given.next]
    unfold headerSize
    omega
  have hlisted := Listed.next .head hgiven
  rw [hhead, hc.given.next, ← hhead] at hlisted
  have hrest := hcon.next _ hlisted (by
    rw [hhead, hc.rest.next]
    unfold headerSize
    omega)
  rw [hhead, hc.rest.next, hc.rest.size] at hrest
  simp only [pageSize] at hrest
  omega

/-- Behind used nodes only, first fit ends at the last node. -/
theorem firstFit_last {h : Heap} {bs xs ys : List Block} {b c : Block} {size : Nat}
    (hl : Laid h (bs ++ [b])) (hused : ∀ b ∈ bs, b.free = false)
    (hsplit : bs ++ [b] = xs ++ c :: ys)
    (hfit : FirstFit h.mem size h.mallocListHead (h.mallocStart + span xs)) :
    xs = bs ∧ c = b ∧ ys = [] := by
  have ht := hl.tiles
  rw [hsplit] at ht
  have hnode := tiles_node ht
  by_cases hys : ys = []
  · subst hys
    obtain ⟨hxs, hc⟩ := List.append_inj' hsplit rfl
    exact ⟨hxs.symm, (List.cons.inj hc).1.symm, rfl⟩
  · obtain ⟨zs, d, rfl⟩ : ∃ zs d, ys = zs ++ [d] :=
      ⟨_, _, (List.dropLast_concat_getLast hys).symm⟩
    have hbs : bs = xs ++ c :: zs := by
      have hcat : bs ++ [b] = (xs ++ c :: zs) ++ [d] := by simpa using hsplit
      exact List.append_inj_left' hcat rfl
    have hc : c.free = false := hused c (hbs ▸ List.mem_append_right _ List.mem_cons_self)
    rcases hfit.found with ⟨hfree, -⟩ | hlast
    · exact absurd (hnode.free.mp hfree) (by simp [hc])
    · exact absurd ((hsplit ▸ hl).last hlast) hys

/-- First fit ends on the list. -/
theorem FirstFit.listed {m : Bytes} {a size n cur : Nat} (hn : Listed m a n)
    (h : FirstFit m size n cur) : Listed m a cur := by
  induction h with
  | fits => exact hn
  | last => exact hn
  | next _ hnext _ ih => exact ih (hn.next hnext)

/-- A request that splits the last node, behind used nodes only. -/
theorem syscallMalloc_split {h : Heap} {bs : List Block} {size n : Nat} {b : Block}
    (frames : Bytes) (hl : Laid h (bs ++ [b])) (hused : ∀ b ∈ bs, b.free = false)
    (hsize : size + headerSize + n = b.size) (hn : 0 < n) (hpos : 1 ≤ size) (hmax : size < 2 ^ 20)
    (hpages : size + headerSize ≤ 255 * pageSize) :
    ∃ h', syscallMalloc h size frames = some (h.mallocStart + span bs + headerSize, h') ∧
      h'.mallocStart = h.mallocStart ∧
      Laid h' (mergeBlocks (bs ++ [⟨size, false⟩, ⟨n, true⟩])) := by
  have hok : Placeable h size := by
    intro cur hcur
    have hlisted := hcur.listed .head
    rw [hl.head] at hlisted
    obtain ⟨xs, c, ys, hsplit, rfl⟩ := hlisted.block hl.tiles hl.ne_nil
    obtain ⟨rfl, rfl, rfl⟩ := firstFit_last hl hused hsplit hcur
    rw [(tiles_node hl.tiles).size]
    exact Or.inr (Or.inl (by omega))
  obtain ⟨ptr, h', hret⟩ := syscallMalloc_returns frames hl hpos hmax hok hpages
  obtain ⟨h₁, hnext, hstart', hmerged⟩ := syscallMalloc_merged hl hret
  obtain ⟨hstart, xs, c, ys, zs, hsplit, hfit, rfl, hcut, hl'⟩ :=
    mallocNextBlock_placed hl hpos (requested_word hmax) hok hnext
  obtain ⟨rfl, rfl, rfl⟩ := firstFit_last hl hused hsplit hfit
  refine ⟨h', hret, hstart'.trans hstart, ?_⟩
  cases hcut with
  | exact he => omega
  | @split k he =>
    obtain rfl : n = k := by omega
    exact hmerged _ hl'
  | grow _ _ hsmall => omega

/-! ## 6. The claim without the condition -/

/-- **A session after which the list does not tile the heap**: two requests of 100 bytes, the
first pointer freed, and a request of 88. -/
theorem contiguous_fails : ¬ ∀ (mem frames : Bytes) (s : Session),
    Reach Step (fun _ _ => True) (initial mem frames) s → Contiguous s.heap := by
  intro hall
  let zeros : Bytes := fun _ => 0
  have hl₀ : Laid (initMalloc zeros zeros) ([] ++ [⟨4084, true⟩]) := initMalloc_laid zeros zeros
  obtain ⟨h₁, hret₁, hstart₁, hl₁⟩ := syscallMalloc_split zeros hl₀ (by simp)
    (show 100 + headerSize + 3972 = (Block.mk 4084 true).size from rfl) (by decide) (by decide)
    (by decide) (by decide)
  have hl₁ : Laid h₁ ([⟨100, false⟩] ++ [⟨3972, true⟩]) := by simpa [mergeBlocks] using hl₁
  obtain ⟨h₂, hret₂, hstart₂, hl₂⟩ := syscallMalloc_split zeros hl₁ (by simp)
    (show 100 + headerSize + 3860 = (Block.mk 3972 true).size from rfl) (by decide) (by decide)
    (by decide) (by decide)
  have hl₂ : Laid h₂ [⟨100, false⟩, ⟨100, false⟩, ⟨3860, true⟩] := by
    simpa [mergeBlocks] using hl₂
  -- the first pointer is that of the first node
  obtain ⟨h₃, hret₃⟩ := syscallFree_returns (h₂.mallocStart + headerSize) hl₂
  have hl₃ : h₃.mallocStart = h₂.mallocStart ∧
      Laid h₃ [⟨88 + headerSize, true⟩, ⟨100, false⟩, ⟨3860, true⟩] := by
    rcases mallocFree_laid hl₂ hret₃ with ⟨xs, b, ys, hsplit, -, hat, hstart₃, hl₃⟩ | ⟨-, hnone⟩
    · cases xs with
      | nil =>
        obtain ⟨rfl, rfl⟩ := List.cons.inj hsplit
        exact ⟨hstart₃, by simpa [mergeBlocks, headerSize] using hl₃⟩
      | cons x xs =>
        rw [span_cons] at hat
        unfold headerSize at hat
        omega
    · exact absurd rfl (hnone [] _ _ rfl (by simp))
  obtain ⟨hstart₃, hl₃⟩ := hl₃
  have hstart : (initMalloc zeros zeros).mallocStart = 0x400000 := rfl
  have hpages : span [⟨88 + headerSize, true⟩, ⟨100, false⟩, ⟨3860, true⟩] =
      h₃.totalMallocPages * pageSize := hl₃.pages
  simp only [span_cons, span_nil, headerSize, pageSize] at hpages
  obtain ⟨h₄, hret₄, hhead, hcramped⟩ := syscallMalloc_cramped zeros hl₃ rfl (by decide) (by
    unfold addressSpace pageSize
    omega)
  have hrun : Reach Step (fun _ _ => True) (initial zeros zeros) ⟨h₄, _⟩ :=
    (((Reach.refl.tail trivial (.malloc (by decide) (by decide) hret₁)).tail trivial
      (.malloc (by decide) (by decide) hret₂)).tail trivial
      (.free (n := 100) (by simp [hstart₁, hstart₂]) hret₃)).tail trivial
      (.malloc (by decide) (by decide) hret₄)
  exact hcramped.not_contiguous hhead (hall _ _ _ hrun)

end AmateurOs.Malloc
