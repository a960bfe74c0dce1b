/-
# What the heap operations do to a tiling

One lemma per function of `malloc.h`: from a tiling, the function returns and leaves a tiling
given by a list operation.

* `mallocSplit_tiles`: one block becomes a used block of the requested size and a free rest;
* `growNode_tiles`: the last block grows by whole pages;
* `mergeFreeBlocks_tiles`: one forward pass, `mergeBlocks`, which skips a node after a merge;
* `walk_spec`: both scans stop at a node of the tiling, the one looked for or the last.

`used` is the abstraction that matters to the callers: merging keeps it (`used_mergeBlocks`).
-/
import AmateurOs.Heap.Tiling

namespace AmateurOs.Malloc

open AmateurOs.Lib

variable {m m' : Bytes} {a : Nat} {xs ys : List Block} {b : Block}

/-! ## 1. Rewriting one node -/

/-- The address of the next node fits into 32 bits, also where the range ends with the memory. -/
theorem next_lt {n : Nat} (h : n + span ys ≤ addressSpace) :
    (if ys.isEmpty then 0 else n) < 4294967296 := by
  cases ys with
  | nil => exact Nat.zero_lt_succ _
  | cons c ys =>
    rw [span_cons] at h
    unfold headerSize addressSpace at h
    rw [if_neg (by simp)]
    omega

/-- The tiling after a node. -/
theorem tiles_tail (h : Tiles m a (xs ++ b :: ys)) :
    Tiles m (a + span xs + headerSize + b.size) ys :=
  ((tiles_append (by simp) xs).mp h).2.2

/-- The part before a node is untouched, so only the rest has to be laid out again. -/
theorem tiles_rebuild {zs : List Block} (h : Tiles m a (xs ++ b :: ys)) (hz : zs ≠ [])
    (hpre : Same m m' a (a + span xs)) (hnew : Tiles m' (a + span xs) zs) :
    Tiles m' a (xs ++ zs) := by
  have hseg := ((tiles_append (by simp) xs).mp h).1
  exact (tiles_append hz xs).mpr ⟨hseg.frame hpre, hnew⟩

/-- Writing the `free` flag of a node. -/
theorem setFree_tiles (h : Tiles m a (xs ++ b :: ys)) {v : Nat} (hv : v < 4294967296) :
    Tiles (setFree m (a + span xs) v) a (xs ++ ⟨b.size, decide (v ≠ 0)⟩ :: ys) := by
  have hnode := tiles_node h
  refine tiles_rebuild h (by simp) (same_setFree (Or.inr (Nat.le_refl _))) ⟨⟨?_, ?_, ?_⟩, ?_⟩
  · rw [nodeSize_setFree, hnode.size]
  · rw [nodeFree_setFree, u32_eq hv, decide_eq_true_iff]
  · rw [nodeNext_setFree, hnode.next]
  · exact (tiles_tail h).frame (same_setFree (Or.inl (by omega)))

/-- Writing the size of the last node. -/
theorem setSize_tiles (h : Tiles m a (xs ++ [b])) {v : Nat} (hv : v < 4294967296) :
    Tiles (setSize m (a + span xs) v) a (xs ++ [⟨v, b.free⟩]) := by
  have hnode := tiles_node h
  refine tiles_rebuild h (by simp) (same_setSize (Or.inr (Nat.le_refl _))) ⟨⟨?_, ?_, ?_⟩, trivial⟩
  · rw [nodeSize_setSize, u32_eq hv]
  · rw [nodeFree_setSize]
    exact hnode.free
  · rw [nodeNext_setSize, hnode.next]
    rfl

/-- A whole header written at `n`. -/
def writeNode (m : Bytes) (n size free next : Nat) : Bytes :=
  setNext (setFree (setSize m n size) n free) n next

theorem same_writeNode {n size free next c e : Nat} (h : n + headerSize ≤ c ∨ e ≤ n) :
    Same m (writeNode m n size free next) c e :=
  ((same_setSize h).trans (same_setFree h)).trans (same_setNext h)

theorem nodeAt_writeNode {n size free next : Nat} (hs : size < 4294967296)
    (hf : free < 4294967296) (hn : next < 4294967296) :
    NodeAt (writeNode m n size free next) n ⟨size, decide (free ≠ 0)⟩ next := by
  unfold writeNode
  constructor
  · rw [nodeSize_setNext, nodeSize_setFree, nodeSize_setSize, u32_eq hs]
  · rw [nodeFree_setNext, nodeFree_setFree, u32_eq hf, decide_eq_true_iff]
  · rw [nodeNext_setNext, u32_eq hn]

/-- `malloc_split` writes two headers, the new one first. -/
theorem mallocSplit_eq {node size n : Nat} (hn : u32 (node + size + headerSize) = n)
    (hd : node + headerSize ≤ n) :
    mallocSplit m node size = writeNode (writeNode m n
      (sub32 (sub32 (nodeSize m node) size) headerSize) 1 (nodeNext m node)) node size 0 n := by
  have hsame : Same m (setFree (setSize m n (sub32 (sub32 (nodeSize m node) size) headerSize)) n 1)
      node (node + headerSize) :=
    (same_setSize (Or.inr hd)).trans (same_setFree (Or.inr hd))
  unfold mallocSplit writeNode
  simp only [hn, hsame.nodeNext]

/-- **`malloc_split`** cuts a used block of `size` bytes off the front of a block. -/
theorem mallocSplit_tiles (h : Tiles m a (xs ++ b :: ys)) {size : Nat}
    (hs : size + headerSize ≤ b.size) (hb : a + span (xs ++ b :: ys) ≤ addressSpace) :
    Tiles (mallocSplit m (a + span xs) size) a
      (xs ++ ⟨size, false⟩ :: ⟨b.size - size - headerSize, true⟩ :: ys) := by
  rw [span_append, span_cons] at hb
  have hspace : addressSpace = 4294967296 := rfl
  have hheader : headerSize = 12 := rfl
  have hnode := tiles_node h
  have htail := tiles_tail h
  have hrest : sub32 (sub32 (nodeSize m (a + span xs)) size) headerSize
      = b.size - size - headerSize := by
    rw [hnode.size, sub32_eq (a := b.size) (by omega) (by omega),
      sub32_eq (by omega) (by omega)]
  have hlink : (if ys.isEmpty then 0 else a + span xs + headerSize + b.size) < 4294967296 :=
    next_lt (by omega)
  rw [mallocSplit_eq (n := a + span xs + headerSize + size)
      (by rw [u32_eq (by omega)]; omega) (by omega), hrest, hnode.next]
  -- The two headers are apart, and both lie before the tail.
  have hfit : a + span xs + headerSize + size + headerSize
      ≤ a + span xs + headerSize + b.size := by omega
  refine tiles_rebuild h (by simp) ?_ ⟨?_, ?_, ?_⟩
  · exact (same_writeNode (Or.inr (by omega))).trans (same_writeNode (Or.inr (by omega)))
  · exact nodeAt_writeNode (by omega) (by decide) (by omega)
  · have hrestNode : NodeAt (writeNode m (a + span xs + headerSize + size)
        (b.size - size - headerSize) 1 _) _ ⟨b.size - size - headerSize, true⟩ _ :=
      nodeAt_writeNode (by omega) (by decide) hlink
    have hend : a + span xs + headerSize + size + headerSize + (b.size - size - headerSize)
        = a + span xs + headerSize + b.size := by omega
    rw [hend]
    exact hrestNode.frame (same_writeNode (Or.inl (by omega)))
  · have hend : a + span xs + headerSize + size + headerSize + (b.size - size - headerSize)
        = a + span xs + headerSize + b.size := by omega
    rw [hend]
    exact htail.frame
      ((same_writeNode (Or.inl (by omega))).trans (same_writeNode (Or.inl (by omega))))

/-! ## 2. Growing the last block -/

theorem same_mapPage {frames : Bytes} {virt c e : Nat} (h : e ≤ virt) :
    Same m (mapPage m frames virt) c e :=
  fun _ _ hq => blit_out (by omega)

/-- **The growing loop** adds `n` pages to the last block. -/
theorem growNode_tiles (frames : Bytes) : ∀ (n : Nat) {m : Bytes} {b : Block},
    Tiles m a (xs ++ [b]) → a + span (xs ++ [b]) + n * pageSize < 4294967296 →
      Tiles (growNode frames (a + span xs) n m (a + span (xs ++ [b]))) a
        (xs ++ [⟨b.size + n * pageSize, b.free⟩]) := by
  intro n
  induction n with
  | zero =>
    intro m b h _
    simpa [growNode] using h
  | succ n ih =>
    intro m b h hb
    have hspan : a + span (xs ++ [b]) = a + span xs + headerSize + b.size := by
      rw [span_append, span_cons, span_nil]
      omega
    have hmapped : Tiles (mapPage m frames (a + span (xs ++ [b]))) a (xs ++ [b]) :=
      h.frame (same_mapPage (Nat.le_refl _))
    have hsize := (tiles_node hmapped).size
    rw [Nat.succ_mul] at hb
    have hstep := setSize_tiles hmapped (v := b.size + pageSize) (by omega)
    unfold growNode
    simp only [hsize]
    rw [u32_eq (by omega : b.size + pageSize < 4294967296), u32_eq (by omega)]
    have hnext : a + span (xs ++ [b]) + pageSize
        = a + span (xs ++ [⟨b.size + pageSize, b.free⟩]) := by
      simp only [span_append, span_cons, span_nil]
      omega
    have hdone := ih hstep (by omega)
    rw [hnext]
    rwa [(by rw [Nat.succ_mul]; omega : b.size + (n + 1) * pageSize
      = b.size + pageSize + n * pageSize)]

/-! ## 3. Walking the list -/

/-- A tiling of the address space has fewer blocks than there are addresses. -/
theorem length_le_span (bs : List Block) : bs.length ≤ span bs := by
  induction bs with
  | nil => exact Nat.le_refl _
  | cons b bs ih =>
    rw [List.length_cons, span_cons]
    unfold headerSize
    omega

/-- **The scans.**  Following `next` while `p` holds and there is a next node ends at a node of
the tiling, at which `p` fails or which is the last; `p` holds at every node passed. -/
theorem walk_spec {p : Nat → Bool} : ∀ (fuel : Nat) (todo done : List Block),
    todo ≠ [] → todo.length ≤ fuel → 0 < a → Tiles m a (done ++ todo) →
      ∃ xs b ys, done ++ todo = xs ++ b :: ys ∧
        loop (fun cur => p cur && nodeNext m cur != 0) (nodeNext m) fuel (a + span done)
          = some (a + span xs) ∧ (p (a + span xs) = false ∨ ys = []) ∧
        ∀ pre c post, xs = pre ++ c :: post → done.length ≤ pre.length →
          p (a + span pre) = true := by
  intro fuel
  induction fuel with
  | zero =>
    intro todo done hne hl
    cases todo with
    | nil => exact absurd rfl hne
    | cons b ys => simp at hl
  | succ fuel ih =>
    intro todo done hne hl ha h
    obtain ⟨b, ys, rfl⟩ := List.exists_cons_of_ne_nil hne
    have hnode := tiles_node h
    by_cases hgo : (p (a + span done) && nodeNext m (a + span done) != 0) = true
    · have hys : ys ≠ [] := by
        rintro rfl
        rw [hnode.next] at hgo
        simp at hgo
      have hnext : nodeNext m (a + span done) = a + span (done ++ [b]) := by
        rw [hnode.next, if_neg (by simpa using hys), span_append, span_cons, span_nil]
        omega
      have hsplit : done ++ b :: ys = (done ++ [b]) ++ ys := by simp
      rw [hsplit] at h
      obtain ⟨xs, c, zs, hat, hloop, hstop, hpassed⟩ :=
        ih ys (done ++ [b]) hys (by simpa using hl) ha h
      refine ⟨xs, c, zs, hsplit.trans hat, ?_, hstop, fun pre d post hpre hlen => ?_⟩
      · rw [loop_turn]
        · rw [hnext]
          exact hloop
        · exact hgo
      by_cases hfirst : pre.length = done.length
      · -- the node just passed
        have hdone : pre = done := by
          have hxs : (xs ++ c :: zs).take pre.length = pre := by
            rw [hpre, List.append_assoc, List.take_left]
          rw [← hat, hfirst, List.append_assoc, List.take_left] at hxs
          exact hxs.symm
        rw [hdone]
        exact ((Bool.and_eq_true_iff).mp hgo).1
      · refine hpassed pre d post hpre ?_
        rw [List.length_append, List.length_singleton]
        omega
    · have hstop : (p (a + span done) && nodeNext m (a + span done) != 0) = false := by
        simpa using hgo
      refine ⟨done, b, ys, rfl, loop_done hstop, ?_, fun pre c post hpre hlen => ?_⟩
      · rcases Bool.and_eq_false_iff.mp hstop with hp | hn
        · exact Or.inl hp
        · right
          have hz : nodeNext m (a + span done) = 0 := by simpa using hn
          rw [hnode.next] at hz
          by_contra hys
          rw [if_neg (by simpa using hys)] at hz
          omega
      · have := congrArg List.length hpre
        rw [List.length_append, List.length_cons] at this
        omega

/-! ## 4. Merging -/

/-- One forward pass over the blocks: two free neighbours become one block, and the pass goes on
behind them. -/
def mergeBlocks : List Block → List Block
  | b :: c :: bs =>
    if b.free && c.free then ⟨b.size + (c.size + headerSize), true⟩ :: mergeBlocks bs
    else b :: mergeBlocks (c :: bs)
  | bs => bs

@[simp] theorem span_mergeBlocks (bs : List Block) : span (mergeBlocks bs) = span bs := by
  fun_induction mergeBlocks bs with
  | case1 b c bs hf ih =>
    simp only [span_cons, ih]
    omega
  | case2 b c bs hf ih => rw [span_cons, ih, span_cons b]
  | case3 bs h => rfl

/-- **Merging hands nothing out and takes nothing back.** -/
theorem used_mergeBlocks (bs : List Block) : ∀ a, used a (mergeBlocks bs) = used a bs := by
  fun_induction mergeBlocks bs with
  | case1 b c bs hf ih =>
    intro a
    rw [Bool.and_eq_true] at hf
    simp only [used, hf.1, hf.2, if_true, List.nil_append, ih]
    rw [(by omega : a + headerSize + (b.size + (c.size + headerSize))
      = a + headerSize + b.size + headerSize + c.size)]
  | case2 b c bs hf ih =>
    intro a
    rw [used, ih]
    rfl
  | case3 bs h => intro a; rfl

/-- The first block does not shrink. -/
theorem mergeBlocks_head {b : Block} {bs : List Block} (hb : 0 < b.size) :
    ∃ c cs, mergeBlocks (b :: bs) = c :: cs ∧ 0 < c.size := by
  cases bs with
  | nil => exact ⟨b, [], rfl, hb⟩
  | cons d bs =>
    unfold mergeBlocks
    split
    · exact ⟨_, _, rfl, by simp only; omega⟩
    · exact ⟨_, _, rfl, hb⟩

/-- One turn of the merging loop at a node with a successor. -/
theorem mergeTurn_tiles {c : Block} {done bs : List Block}
    (h : Tiles m a (done ++ b :: c :: bs)) (ha : 0 < a)
    (hb : a + span (done ++ b :: c :: bs) ≤ addressSpace) :
    (b.free = true ∧ c.free = true →
      mergeTurn (m, a + span done) = ((mergeTurn (m, a + span done)).1,
          if bs.isEmpty then 0 else a + span (done ++ [⟨b.size + (c.size + headerSize), true⟩])) ∧
        Tiles (mergeTurn (m, a + span done)).1 a
          (done ++ ⟨b.size + (c.size + headerSize), true⟩ :: bs)) ∧
    (¬ (b.free = true ∧ c.free = true) →
      mergeTurn (m, a + span done) = (m, a + span (done ++ [b]))) := by
  have hnode := tiles_node h
  have hsplit : done ++ b :: c :: bs = (done ++ [b]) ++ c :: bs := by simp
  have hnode' := tiles_node (hsplit ▸ h)
  have hnext : nodeNext m (a + span done) = a + span (done ++ [b]) := by
    rw [hnode.next, if_neg (by simp), span_append, span_cons, span_nil]
    omega
  rw [span_append, span_cons, span_cons] at hb
  have hspace : addressSpace = 4294967296 := rfl
  have hheader : headerSize = 12 := rfl
  have haddr : a + span (done ++ [b]) = a + span done + headerSize + b.size := by
    rw [span_append, span_cons, span_nil]
    omega
  constructor
  · intro hff
    have hcond : nodeFree m (a + span done) ≠ 0 ∧ nodeFree m (a + span (done ++ [b])) ≠ 0 :=
      ⟨hnode.free.mpr hff.1, hnode'.free.mpr hff.2⟩
    have hlink : (if bs.isEmpty then 0 else a + span (done ++ [b]) + headerSize + c.size)
        < 4294967296 := next_lt (by omega)
    have hlink' : (if bs.isEmpty then 0 else a + span (done ++ [b]) + headerSize + c.size)
        = if bs.isEmpty then 0
          else a + span (done ++ [⟨b.size + (c.size + headerSize), true⟩]) := by
      split
      · rfl
      · rw [haddr, span_append, span_cons, span_nil]
        simp only
        omega
    have hsame := same_setSize (m := m) (n := a + span done)
      (v := b.size + (c.size + headerSize)) (a := a + span (done ++ [b]))
      (e := a + span (done ++ [b]) + headerSize) (Or.inl (by omega))
    have hturn : mergeTurn (m, a + span done)
        = (setNext (setSize m (a + span done) (b.size + (c.size + headerSize))) (a + span done)
            (if bs.isEmpty then 0 else a + span (done ++ [b]) + headerSize + c.size),
          if bs.isEmpty then 0
          else a + span (done ++ [⟨b.size + (c.size + headerSize), true⟩])) := by
      unfold mergeTurn
      simp only [hnext, if_pos hcond, hnode.size, hnode'.size]
      rw [u32_eq (n := c.size + headerSize) (by omega), u32_eq (by omega), hsame.nodeNext,
        hnode'.next, nodeNext_setNext, u32_eq hlink, hlink']
    refine ⟨by rw [hturn], ?_⟩
    rw [hturn]
    refine tiles_rebuild h (by simp) ?_ ⟨⟨?_, ?_, ?_⟩, ?_⟩
    · exact (same_setSize (Or.inr (Nat.le_refl _))).trans (same_setNext (Or.inr (Nat.le_refl _)))
    · rw [nodeSize_setNext, nodeSize_setSize, u32_eq (by omega)]
    · rw [nodeFree_setNext, nodeFree_setSize]
      exact iff_of_true hcond.1 rfl
    · rw [nodeNext_setNext, u32_eq hlink, haddr]
      split
      · rfl
      · simp only
        omega
    · have htail := tiles_tail (hsplit ▸ h)
      simp only
      rw [(by omega : a + span done + headerSize + (b.size + (c.size + headerSize))
        = a + span (done ++ [b]) + headerSize + c.size)]
      exact htail.frame
        ((same_setSize (Or.inl (by omega))).trans (same_setNext (Or.inl (by omega))))
  · intro hff
    have hcond : ¬ (nodeFree m (a + span done) ≠ 0 ∧ nodeFree m (a + span (done ++ [b])) ≠ 0) :=
      fun hc => hff ⟨hnode.free.mp hc.1, hnode'.free.mp hc.2⟩
    unfold mergeTurn
    simp only [hnext, if_neg hcond]

/-- The merging loop, from a node on. -/
theorem mergeLoop_tiles (ha : 0 < a) : ∀ (fuel : Nat) (todo done : List Block) {m : Bytes},
    todo.length ≤ fuel → Tiles m a (done ++ todo) → a + span (done ++ todo) ≤ addressSpace →
      ∃ m' cur, loop (fun s : Bytes × Nat => s.2 != 0 && nodeNext s.1 s.2 != 0) mergeTurn fuel
          (m, if todo.isEmpty then 0 else a + span done) = some (m', cur) ∧
        Tiles m' a (done ++ mergeBlocks todo) := by
  intro fuel
  induction fuel with
  | zero =>
    intro todo done m hl h _
    obtain rfl := List.length_eq_zero_iff.mp (Nat.le_zero.mp hl)
    exact ⟨m, 0, loop_done (by simp), h⟩
  | succ fuel ih =>
    intro todo done m hl h hb
    match todo with
    | [] => exact ⟨m, 0, loop_done (by simp), h⟩
    | [b] =>
      have hnode := tiles_node h
      refine ⟨m, a + span done, loop_done ?_, h⟩
      simp only [List.isEmpty_cons, Bool.false_eq_true, if_false, hnode.next, List.isEmpty_nil,
        if_true]
      simp
    | b :: c :: bs =>
      have hnode := tiles_node h
      obtain ⟨hmerge, hskip⟩ := mergeTurn_tiles h ha hb
      have hgo : ((a + span done != 0) && nodeNext m (a + span done) != 0) = true := by
        rw [hnode.next, if_neg (by simp), Bool.and_eq_true]
        constructor <;> simp only [bne_iff_ne, ne_eq] <;> omega
      rw [if_neg (by simp), loop_turn]
      swap
      · exact hgo
      simp only [List.length_cons] at hl
      by_cases hff : b.free = true ∧ c.free = true
      · obtain ⟨hturn, htile⟩ := hmerge hff
        rw [hturn]
        have hcat : done ++ ⟨b.size + (c.size + headerSize), true⟩ :: bs
            = (done ++ [⟨b.size + (c.size + headerSize), true⟩]) ++ bs := by simp
        rw [hcat] at htile
        obtain ⟨m', cur, hloop, hfin⟩ := ih bs _ (by omega) htile (by
          simp only [span_append, span_cons, span_nil] at hb ⊢
          omega)
        refine ⟨m', cur, hloop, ?_⟩
        rw [mergeBlocks, if_pos (by simpa using hff)]
        simpa using hfin
      · rw [hskip hff]
        have hcat : done ++ b :: c :: bs = (done ++ [b]) ++ c :: bs := by simp
        rw [hcat] at h hb
        obtain ⟨m', cur, hloop, hfin⟩ := ih (c :: bs) (done ++ [b]) (by simp; omega) h hb
        refine ⟨m', cur, hloop, ?_⟩
        rw [mergeBlocks, if_neg (by simpa using hff)]
        simpa using hfin

/-- **`merge_free_blocks`** returns, and leaves the merged tiling. -/
theorem mergeFreeBlocks_tiles {bs : List Block} (h : Tiles m a bs) (ha : 0 < a)
    (hne : bs ≠ []) (hb : a + span bs ≤ addressSpace) :
    ∃ m', mergeFreeBlocks m a = some m' ∧ Tiles m' a (mergeBlocks bs) := by
  have hlen : bs.length ≤ addressSpace := by
    have := length_le_span bs
    omega
  obtain ⟨m', cur, hloop, hfin⟩ := mergeLoop_tiles ha addressSpace bs [] hlen h (by simpa using hb)
  refine ⟨m', ?_, hfin⟩
  rw [if_neg (by simpa using hne)] at hloop
  unfold mergeFreeBlocks
  simp only [span_nil, Nat.add_zero] at hloop
  rw [hloop]
  rfl

end AmateurOs.Malloc
