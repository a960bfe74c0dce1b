/-
# Growing the heap

`malloc_next_block` over the blocks of physical memory and the page directory: what
`allocate_blocks` and `map_address` return is not looked at, so the growing branch never gives up.
The address 0 of a failed allocation is mapped like any other.

A request is answered as it should be when the node of the first fit has the size or is split, or
grows by at most 255 pages that all get a block (`requests_answered`).  The page count is a
`uint8_t`: a request of 2 MiB is never answered.  The heap stays in order when the node that grows is
the last one: the new pages lie behind the heap, and not behind another node.
-/
import AmateurOs.Heap.Contiguous
import AmateurOs.Memory.Mapping

namespace AmateurOs.Malloc

open AmateurOs.Lib
open AmateurOs.Memory (Machine allocateBlocks mapAddress mapFuel)

/-! ## 1. `malloc_next_block` over physical memory -/

/-- The heap and the physical memory below it.  `pages` are the pages that were mapped with a block
of `allocate_blocks`, each with the address of its block. -/
structure Space where
  heap : Heap
  machine : Machine
  pages : List (Nat × Nat)

/-- `PTE_PRESENT | PTE_READ_WRITE | PTE_USER`. -/
def pageFlags : Nat := 7

namespace Space

/-- `map_address` of a page of the heap; `block` is what `allocate_blocks` returned. -/
def mapAt (dir : Nat) (k : Space) (block phys virt : Nat) : Option Space :=
  (mapAddress mapFuel k.machine dir phys virt pageFlags).map fun r => { k with
    machine := r.2
    pages := if block ≠ 0 ∧ r.1 = true then (virt, phys) :: k.pages else k.pages }

/-- `malloc_init`. -/
def mallocInit (dir : Nat) (k : Space) (bytes : Nat) (frames : Bytes) : Option Space :=
  let count := bytes / pageSize + (if bytes % pageSize > 0 then 1 else 0)
  let block := allocateBlocks k.machine.manager count
  ((List.range count).foldlM (fun k i => mapAt dir k block.1 (u32 (block.1 + i * pageSize))
    (u32 (k.heap.mallocVirtAddress + i * pageSize)))
    { k with machine := { k.machine with manager := block.2 } }).map fun k =>
      { k with heap := Malloc.mallocInit k.heap bytes frames }

/-- A page of the growing loop: `allocate_blocks(1)`, `map_address`, `cur->size` and
`total_malloc_pages`. -/
def growPage (dir : Nat) (frames : Bytes) (cur : Nat) (k : Space) (virt : Nat) : Option Space :=
  let temp := allocateBlocks k.machine.manager 1
  (mapAt dir { k with machine := { k.machine with manager := temp.2 } } temp.1 temp.1 virt).map
    fun k =>
      let m := mapPage k.heap.mem frames virt
      { k with heap := { k.heap with
        mem := setSize m cur (u32 (nodeSize m cur + pageSize))
        totalMallocPages := u32 (k.heap.totalMallocPages + 1) } }

/-- The growing loop of `malloc_next_block`. -/
def grow (dir : Nat) (frames : Bytes) (cur : Nat) : Nat → Space → Nat → Option Space
  | 0, k, _ => some k
  | n + 1, k, virt =>
    (growPage dir frames cur k virt).bind fun k => grow dir frames cur n k (u32 (virt + pageSize))

def setMem (k : Space) (m : Bytes) : Space := { k with heap := { k.heap with mem := m } }

/-- `malloc_next_block`. -/
def mallocNextBlock (dir : Nat) (k : Space) (size : Nat) (frames : Bytes) :
    Option (Nat × Space) :=
  if size = 0 then some (0, k)
  else
    (if nodeSize k.heap.mem k.heap.mallocListHead = 0 then mallocInit dir k size frames
      else some k).bind fun k =>
    (scan k.heap.mem size k.heap.mallocListHead).bind fun cur =>
      if size = nodeSize k.heap.mem cur then
        some (u32 (cur + headerSize), k.setMem (setFree k.heap.mem cur 0))
      else if nodeSize k.heap.mem cur > u32 (size + headerSize) then
        some (u32 (cur + headerSize), k.setMem (mallocSplit k.heap.mem cur size))
      else
        (numPages (nodeSize k.heap.mem cur) size).bind fun n =>
          let virt := u32 (k.heap.mallocVirtAddress + u32 (k.heap.totalMallocPages * pageSize))
          (grow dir frames cur n k virt).map fun k =>
            (u32 (cur + headerSize), k.setMem (mallocSplit k.heap.mem cur size))

/-- `syscall_malloc`. -/
def syscallMalloc (dir : Nat) (k : Space) (bytes : Nat) (frames : Bytes) : Option (Nat × Space) :=
  (if k.heap.mallocListHead = 0 then mallocInit dir k bytes frames else some k).bind fun k =>
    (mallocNextBlock dir k bytes frames).bind fun r =>
      (mergeFreeBlocks r.2.heap.mem r.2.heap.mallocListHead).map fun m => (r.1, r.2.setMem m)

/-- `init_malloc` of `kernel.c`. -/
def initMalloc (dir : Nat) (machine : Machine) (mem frames : Bytes) : Option Space :=
  let block := allocateBlocks machine.manager 1
  mapAt dir ⟨Malloc.initMalloc mem frames, { machine with manager := block.2 }, []⟩ block.1 block.1
    0x400000

end Space

/-! ## 2. The property and the runs -/

/-- **A block**: it has a header with at least the size asked for, and each of its pages was mapped
with a block of `allocate_blocks`. -/
structure Grants (k : Space) (ptr size : Nat) : Prop where
  nonnull : ptr ≠ 0
  large : size ≤ nodeSize k.heap.mem (ptr - headerSize)
  backed : ∀ p, ptr ≤ p → p < ptr + size →
    ∃ block ≠ 0, (p / pageSize * pageSize, block) ∈ k.pages

/-- **The next `n` pages from `virt` on** each get a block and are mapped. -/
def Supplied (dir : Nat) : Nat → Machine → Nat → Prop
  | 0, _, _ => True
  | n + 1, m, virt => (allocateBlocks m.manager 1).1 ≠ 0 ∧
    ∃ m', mapAddress mapFuel { m with manager := (allocateBlocks m.manager 1).2 } dir
        (allocateBlocks m.manager 1).1 virt pageFlags = some (true, m') ∧
      Supplied dir n m' (u32 (virt + pageSize))

/-- The pages by which the node of the first fit has to grow, if any, are supplied. -/
def Available (dir : Nat) (k : Space) (size : Nat) : Prop :=
  ∀ cur, FirstFit k.heap.mem size k.heap.mallocListHead cur →
    nodeSize k.heap.mem cur = size ∨ size + headerSize < nodeSize k.heap.mem cur ∨
      Supplied dir (pagesFor (nodeSize k.heap.mem cur) size) k.machine
        (k.heap.mallocStart + k.heap.totalMallocPages * pageSize)

/-- **A request is answered**: with a block, or with null and nothing changed; with null where the
pages needed are not to be had. -/
def Answered (dir : Nat) (k : Space) (size : Nat) (frames : Bytes) : Prop :=
  ∃ ptr k', k.mallocNextBlock dir size frames = some (ptr, k') ∧
    (Grants k' ptr size ∨ (ptr = 0 ∧ k' = k)) ∧ (¬ Available dir k size → ptr = 0 ∧ k' = k)

/-- **When it is**: the node of the first fit has the size, or is split, or grows by at most 255
pages, which lie in the address space and are supplied. -/
def Answerable (dir : Nat) (k : Space) (size : Nat) : Prop :=
  ∀ cur, FirstFit k.heap.mem size k.heap.mallocListHead cur →
    nodeSize k.heap.mem cur = size ∨ size + headerSize < nodeSize k.heap.mem cur ∨
      (pagesFor (nodeSize k.heap.mem cur) size ≤ 255 ∧
        k.heap.mallocStart + (k.heap.totalMallocPages +
          pagesFor (nodeSize k.heap.mem cur) size) * pageSize < addressSpace ∧
        Supplied dir (pagesFor (nodeSize k.heap.mem cur) size) k.machine
          (k.heap.mallocStart + k.heap.totalMallocPages * pageSize))

/-- When the heap is in order behind the request too: a node that grows is the last one. -/
structure Served (dir : Nat) (k : Space) (size : Nat) : Prop where
  answerable : Answerable dir k size
  last : ∀ cur, FirstFit k.heap.mem size k.heap.mallocListHead cur →
    nodeSize k.heap.mem cur = size ∨ size + headerSize < nodeSize k.heap.mem cur ∨
      nodeNext k.heap.mem cur = 0

/-- The system calls that return. -/
inductive SpaceStep (dir : Nat) : Space → Call → Space → Prop
  | malloc {k k' : Space} {size ptr : Nat} {frames : Bytes} (hpos : 1 ≤ size)
      (hret : k.syscallMalloc dir size frames = some (ptr, k')) :
      SpaceStep dir k (.malloc size frames) k'
  | free {k : Space} {ptr : Nat} {h : Heap} (hret : syscallFree k.heap ptr = some h) :
      SpaceStep dir k (.free ptr) { k with heap := h }

/-- The condition on a call. -/
def CallServed (dir : Nat) (k : Space) : Call → Prop
  | .malloc size _ => Served dir k size
  | .free _ => True

/-! ## 3. Growing -/

section

variable {dir : Nat} {frames : Bytes}

/-- The heap after the growing loop. -/
theorem Space.grow_heap {cur : Nat} : ∀ {n : Nat} {k k' : Space} {virt : Nat},
    k.heap.totalMallocPages < 4294967296 → Space.grow dir frames cur n k virt = some k' →
    k'.heap = { k.heap with
      mem := growNode frames cur n k.heap.mem virt
      totalMallocPages := u32 (k.heap.totalMallocPages + n) } := by
  intro n
  induction n with
  | zero =>
    intro k k' virt hword h
    obtain rfl := Option.some.inj h
    show k.heap = { k.heap with totalMallocPages := u32 (k.heap.totalMallocPages + 0) }
    rw [Nat.add_zero, u32_eq hword]
  | succ n ih =>
    intro k k' virt hword h
    unfold Space.grow at h
    obtain ⟨k₁, hpage, hrest⟩ := Option.bind_eq_some_iff.mp h
    unfold Space.growPage Space.mapAt at hpage
    simp only [Option.map_map] at hpage
    obtain ⟨r, -, rfl⟩ := Option.map_eq_some_iff.mp hpage
    rw [ih (Nat.mod_lt _ (by decide)) hrest]
    have hcount : u32 (u32 (k.heap.totalMallocPages + 1) + n) =
        u32 (k.heap.totalMallocPages + (n + 1)) := by
      unfold u32
      omega
    rw [← hcount]
    rfl

/-- **Pages that are supplied are mapped**, and the others stay. -/
theorem Space.grow_pages {cur : Nat} : ∀ {n : Nat} {k : Space} {virt : Nat},
    Supplied dir n k.machine virt → virt + n * pageSize < addressSpace →
    ∃ k', Space.grow dir frames cur n k virt = some k' ∧ (∀ e ∈ k.pages, e ∈ k'.pages) ∧
      ∀ i < n, ∃ block ≠ 0, (virt + i * pageSize, block) ∈ k'.pages := by
  intro n
  induction n with
  | zero => exact fun _ _ => ⟨_, rfl, fun _ he => he, fun i hi => absurd hi (Nat.not_lt_zero i)⟩
  | succ n ih =>
    intro k virt hsupplied hroom
    obtain ⟨hblock, m', hmapped, hrest⟩ := hsupplied
    have hroom' : virt + pageSize + n * pageSize < addressSpace := by
      rw [Nat.succ_mul] at hroom
      omega
    have hvirt : u32 (virt + pageSize) = virt + pageSize :=
      u32_eq (Nat.lt_of_le_of_lt (Nat.le_add_right _ _) hroom')
    rw [hvirt] at hrest
    have hpage : ∃ k₁, Space.growPage dir frames cur k virt = some k₁ ∧ k₁.machine = m' ∧
        k₁.pages = (virt, (allocateBlocks k.machine.manager 1).1) :: k.pages := by
      unfold Space.growPage Space.mapAt
      simp only [hmapped, Option.map_some, and_true, if_pos hblock]
      exact ⟨_, rfl, rfl, rfl⟩
    obtain ⟨k₁, hk₁, rfl, hpages⟩ := hpage
    obtain ⟨k', hk', hold, hnew⟩ := ih hrest hroom'
    refine ⟨k', ?_, fun e he => hold e ?_, fun i hi => ?_⟩
    · unfold Space.grow
      rw [hk₁, Option.bind_some, hvirt]
      exact hk'
    · rw [hpages]
      exact List.mem_cons_of_mem _ he
    · cases i with
      | zero =>
        refine ⟨_, hblock, hold _ ?_⟩
        rw [hpages, Nat.zero_mul, Nat.add_zero]
        exact List.mem_cons_self
      | succ i =>
        obtain ⟨block, hne, hin⟩ := hnew i (by omega)
        refine ⟨block, hne, ?_⟩
        rwa [Nat.succ_mul, Nat.add_comm (i * pageSize), ← Nat.add_assoc]

end

/-- The page count of the growing branch. -/
theorem numPages_eq {curSize size : Nat}
    (hroom : curSize + pagesFor curSize size * pageSize < 4294967296)
    (hnot : curSize ≤ size + headerSize) (hcount : pagesFor curSize size ≤ 255) :
    numPages curSize size = some (pagesFor curSize size) := by
  -- a count that is too small is smaller
  have hturn : ∀ n, 1 ≤ n ∧ n ≤ pagesFor curSize size →
      decide (u32 (curSize + n * pageSize) < u32 (size + headerSize)) = true →
      (1 ≤ u8 (n + 1) ∧ u8 (n + 1) ≤ pagesFor curSize size) ∧
        pagesFor curSize size - u8 (n + 1) < pagesFor curSize size - n := by
    intro n hn hcond
    have hlt := of_decide_eq_true hcond
    unfold pagesFor headerSize pageSize u32 u8 at *
    omega
  have hstart : 1 ≤ 1 ∧ 1 ≤ pagesFor curSize size := ⟨Nat.le_refl _, Nat.le_max_left _ _⟩
  obtain ⟨n, hn⟩ := loop_some (fun n => pagesFor curSize size - n) hturn hstart
    (Nat.le_trans (Nat.sub_le _ _) (Nat.le_trans hcount (by decide : 255 ≤ 256)))
  have hleast := (loop_inv (fun n hn hcond => (hturn n hn hcond).1) hstart hn).1
  obtain ⟨henough, -, hle⟩ := numPages_enough hroom hnot hn
  have heq : n = pagesFor curSize size := by
    unfold pagesFor headerSize pageSize at *
    omega
  rw [← heq]
  exact hn

/-! ## 4. One request -/

/-- **A heap in order**: its list tiles it, and each of its pages is backed by a block. -/
structure Backed (k : Space) (bs : List Block) : Prop where
  laid : Laid k.heap bs
  aligned : k.heap.mallocStart % pageSize = 0
  pages : ∀ i < k.heap.totalMallocPages,
    ∃ block ≠ 0, (k.heap.mallocStart + i * pageSize, block) ∈ k.pages

section

variable {dir size : Nat} {frames : Bytes} {k : Space} {bs : List Block}

/-- A request that is served is placed by the heap. -/
theorem Served.placeable (h : Served dir k size) : Placeable k.heap size := by
  intro cur hcur
  rcases h.last cur hcur with hexact | hlarge | hlast
  · exact Or.inl hexact
  · exact Or.inr (Or.inl hlarge)
  · exact (h.answerable cur hcur).imp_right fun h => h.imp_right fun h => ⟨hlast, h.2.1⟩

/-- Where the new pages begin. -/
theorem Laid.virt_next {h : Heap} (hl : Laid h bs) :
    u32 (h.mallocVirtAddress + u32 (h.totalMallocPages * pageSize)) =
      h.mallocStart + h.totalMallocPages * pageSize := by
  have hfits := hl.fits
  unfold addressSpace at hfits
  rw [hl.virt, u32_eq (by omega : h.totalMallocPages * pageSize < 4294967296), u32_eq hfits]

/-- **The heap grows** by pages that are supplied, and all its pages are backed. -/
theorem Backed.grow {cur n : Nat} (hb : Backed k bs) (hsupplied : Supplied dir n k.machine
      (k.heap.mallocStart + k.heap.totalMallocPages * pageSize))
    (hroom : k.heap.mallocStart + (k.heap.totalMallocPages + n) * pageSize < addressSpace) :
    ∃ k', Space.grow dir frames cur n k
        (k.heap.mallocStart + k.heap.totalMallocPages * pageSize) = some k' ∧
      k'.heap = { k.heap with
        mem := growNode frames cur n k.heap.mem
          (k.heap.mallocStart + k.heap.totalMallocPages * pageSize)
        totalMallocPages := k.heap.totalMallocPages + n } ∧
      ∀ i < k.heap.totalMallocPages + n,
        ∃ block ≠ 0, (k.heap.mallocStart + i * pageSize, block) ∈ k'.pages := by
  have hroom' := hroom
  rw [Nat.add_mul, ← Nat.add_assoc] at hroom'
  have htotal : k.heap.totalMallocPages + n < 4294967296 := by
    unfold addressSpace pageSize at hroom
    omega
  obtain ⟨k', hk', hold, hnew⟩ := @Space.grow_pages dir frames cur _ k _ hsupplied hroom'
  have hheap := Space.grow_heap (by omega) hk'
  rw [u32_eq htotal] at hheap
  refine ⟨k', hk', hheap, fun i hi => ?_⟩
  rcases Nat.lt_or_ge i k.heap.totalMallocPages with hlt | hge
  · obtain ⟨block, hne, hin⟩ := hb.pages i hlt
    exact ⟨block, hne, hold _ hin⟩
  · obtain ⟨block, hne, hin⟩ := hnew (i - k.heap.totalMallocPages) (by omega)
    refine ⟨block, hne, ?_⟩
    rwa [Nat.add_assoc, ← Nat.add_mul, Nat.add_sub_cancel' hge] at hin

/-- `malloc_split` stores the size of the node behind everything else of it. -/
theorem nodeSize_mallocSplit {m : Bytes} {node : Nat} (hword : size < 4294967296) :
    nodeSize (mallocSplit m node size) node = size := by
  unfold mallocSplit
  rw [nodeSize_setNext, nodeSize_setFree, nodeSize_setSize, u32_eq hword]

/-- **A node handed out**: it has the size asked for, and lies inside the pages of the heap. -/
structure HandedOut (h : Heap) (start cur size : Nat) : Prop where
  sized : nodeSize h.mem cur = size
  low : start ≤ cur
  high : cur + headerSize + size ≤ start + h.totalMallocPages * pageSize

/-- **A request that is answered**: the call returns what it returns on the heap alone, a node of
the size in the pages of the heap, which are backed by blocks. -/
theorem Backed.request (hb : Backed k bs) (hpos : 1 ≤ size) (hok : Answerable dir k size) :
    ∃ cur k', k.mallocNextBlock dir size frames = some (cur + headerSize, k') ∧
      Malloc.mallocNextBlock k.heap size frames = some (cur + headerSize, k'.heap) ∧
      HandedOut k'.heap k.heap.mallocStart cur size ∧
      ∀ i < k'.heap.totalMallocPages,
        ∃ block ≠ 0, (k.heap.mallocStart + i * pageSize, block) ∈ k'.pages := by
  have hl := hb.laid
  obtain ⟨xs, b, ys, rfl, hscan⟩ := hl.scanned size
  have hnode := tiles_node hl.tiles
  have hfirst := scan_firstFit hscan
  have hfit := hok _ hfirst
  have hbound := hl.bound
  have hpages := hl.pages
  rw [span_append, span_cons] at hbound hpages
  rw [hnode.size] at hfit
  have hzero : size ≠ 0 := Nat.pos_iff_ne_zero.mp hpos
  have hptr : u32 (k.heap.mallocStart + span xs + headerSize) =
      k.heap.mallocStart + span xs + headerSize := u32_eq (by omega)
  have hlow : k.heap.mallocStart ≤ k.heap.mallocStart + span xs := Nat.le_add_right _ _
  unfold Space.mallocNextBlock Malloc.mallocNextBlock
  simp only [if_neg hzero, if_neg hl.head_size, Option.bind_some, hscan, hnode.size, hptr]
  by_cases hexact : size = b.size
  · rw [if_pos hexact, if_pos hexact]
    refine ⟨_, _, rfl, rfl, ⟨?_, hlow, ?_⟩, hb.pages⟩
    · exact (nodeSize_setFree _ _ _).trans (hnode.size.trans hexact.symm)
    · simp only [Space.setMem]
      omega
  rw [if_neg hexact, if_neg hexact]
  rcases hfit.resolve_left (Ne.symm hexact) with hlarge | ⟨hcount, hroom, hsupplied⟩
  · rw [u32_eq (by omega), if_pos hlarge, if_pos hlarge]
    refine ⟨_, _, rfl, rfl, ⟨nodeSize_mallocSplit (by omega), hlow, ?_⟩, hb.pages⟩
    simp only [Space.setMem]
    omega
  have hspan : b.size ≤ k.heap.totalMallocPages * pageSize := by omega
  have hsum : b.size + pagesFor b.size size * pageSize < 4294967296 := by
    rw [Nat.add_mul] at hroom
    unfold addressSpace at hroom
    omega
  have henough : size + headerSize ≤ b.size + pagesFor b.size size * pageSize := by
    unfold pagesFor pageSize headerSize
    omega
  have hword : size + headerSize < 4294967296 := Nat.lt_of_le_of_lt henough hsum
  rw [u32_eq hword]
  by_cases hlarge : b.size > size + headerSize
  · rw [if_pos hlarge, if_pos hlarge]
    refine ⟨_, _, rfl, rfl, ⟨nodeSize_mallocSplit (by omega), hlow, ?_⟩, hb.pages⟩
    simp only [Space.setMem]
    omega
  · rw [if_neg hlarge, if_neg hlarge, numPages_eq hsum (Nat.not_lt.mp hlarge) hcount]
    simp only [Option.bind_some]
    obtain ⟨k', hk', hheap, hbacked⟩ :=
      @Backed.grow dir frames k _ (k.heap.mallocStart + span xs) _ hb hsupplied hroom
    have hgrown : k'.heap.totalMallocPages =
        k.heap.totalMallocPages + pagesFor b.size size := by rw [hheap]
    have htotal : k.heap.totalMallocPages + pagesFor b.size size < 4294967296 := by
      unfold addressSpace pageSize at hroom
      omega
    rw [hl.virt_next, hk']
    refine ⟨_, _, rfl, ?_, ⟨nodeSize_mallocSplit (by omega), hlow, ?_⟩, fun i hi => ?_⟩
    · unfold Space.setMem
      rw [hheap, u32_eq htotal]
    · -- the node is large enough, or the last one
      show _ ≤ k.heap.mallocStart + k'.heap.totalMallocPages * pageSize
      rw [hgrown, Nat.add_mul]
      rcases hfirst.found with ⟨-, hsize⟩ | hlast
      · rw [hnode.size] at hsize
        omega
      · obtain rfl := hl.last hlast
        rw [span_nil] at hpages
        omega
    · exact hbacked i (hgrown ▸ hi)

/-- A node in pages that are backed is a block for the request. -/
theorem HandedOut.grants {start cur : Nat} (h : HandedOut k.heap start cur size)
    (haligned : start % pageSize = 0) (hpages : ∀ i < k.heap.totalMallocPages,
      ∃ block ≠ 0, (start + i * pageSize, block) ∈ k.pages) :
    Grants k (cur + headerSize) size := by
  have hlow := h.low
  have hhigh := h.high
  refine ⟨?_, ?_, fun p hlo hhi => ?_⟩
  · unfold headerSize
    omega
  · rw [Nat.add_sub_cancel, h.sized]
  · -- the page of the byte is one of the heap
    obtain ⟨block, hne, hin⟩ := hpages ((p - start) / pageSize) (by
      refine Nat.div_lt_of_lt_mul ?_
      rw [Nat.mul_comm]
      omega)
    refine ⟨block, hne, ?_⟩
    have hpage : p / pageSize * pageSize = start + (p - start) / pageSize * pageSize := by
      unfold pageSize at *
      omega
    rw [hpage]
    exact hin

/-- The size of a request that is answered and its header are a word. -/
theorem Answerable.word (hl : Laid k.heap bs) (hok : Answerable dir k size) :
    size + headerSize < addressSpace := by
  obtain ⟨xs, b, ys, rfl, hscan⟩ := hl.scanned size
  have hnode := tiles_node hl.tiles
  have hfit := hok _ (scan_firstFit hscan)
  have hbound := hl.bound
  have hpages := hl.pages
  rw [span_append, span_cons] at hbound hpages
  rw [hnode.size] at hfit
  unfold addressSpace at hfit ⊢
  rcases hfit with hexact | hlarge | ⟨-, hroom, -⟩
  · omega
  · omega
  · rw [Nat.add_mul, ← hpages] at hroom
    unfold pagesFor pageSize headerSize at *
    omega

/-- **A request that is served** leaves the heap in order. -/
theorem Backed.granted (frames : Bytes) (hb : Backed k bs) (hpos : 1 ≤ size)
    (hserved : Served dir k size) : ∃ ptr k' bs',
      k.mallocNextBlock dir size frames = some (ptr, k') ∧ Backed k' bs' := by
  obtain ⟨cur, k', hret, hheap, -, hpages⟩ :=
    @Backed.request dir size frames k bs hb hpos hserved.answerable
  obtain ⟨hstart, xs, b, ys, zs, -, -, -, -, hl'⟩ := mallocNextBlock_placed hb.laid hpos
    (hserved.answerable.word hb.laid) hserved.placeable hheap
  have haligned := hb.aligned
  rw [← hstart] at hpages haligned
  exact ⟨_, k', _, hret, hl', haligned, hpages⟩

/-- **A request that meets the condition is answered** with a block. -/
theorem Backed.answered (frames : Bytes) (hb : Backed k bs) (hpos : 1 ≤ size)
    (hok : Answerable dir k size) : Answered dir k size frames := by
  obtain ⟨cur, k', hret, -, hnode, hpages⟩ := @Backed.request dir size frames k bs hb hpos hok
  refine ⟨_, k', hret, Or.inl (hnode.grants hb.aligned hpages),
    fun hno => absurd (fun cur hcur => ?_) hno⟩
  exact (hok cur hcur).imp_right fun h => h.imp_right fun h => h.2.2

/-- **The call never gives up**: a result is the address behind a header. -/
theorem Backed.nonnull {ptr : Nat} {k' : Space} (hb : Backed k bs) (hpos : 1 ≤ size)
    (hret : k.mallocNextBlock dir size frames = some (ptr, k')) : ptr ≠ 0 := by
  have hl := hb.laid
  obtain ⟨xs, b, ys, rfl, hscan⟩ := hl.scanned size
  have hbound := hl.bound
  rw [span_append, span_cons] at hbound
  have hzero : size ≠ 0 := Nat.pos_iff_ne_zero.mp hpos
  have hptr : u32 (k.heap.mallocStart + span xs + headerSize) ≠ 0 := by
    rw [u32_eq (by omega)]
    unfold headerSize
    omega
  unfold Space.mallocNextBlock at hret
  simp only [if_neg hzero, if_neg hl.head_size, Option.bind_some, hscan] at hret
  split at hret
  · obtain ⟨rfl, -⟩ := Prod.mk.inj (Option.some.inj hret)
    exact hptr
  split at hret
  · obtain ⟨rfl, -⟩ := Prod.mk.inj (Option.some.inj hret)
    exact hptr
  · obtain ⟨n, -, hgrown⟩ := Option.bind_eq_some_iff.mp hret
    obtain ⟨k₁, -, heq⟩ := Option.map_eq_some_iff.mp hgrown
    obtain ⟨rfl, -⟩ := Prod.mk.inj heq
    exact hptr

/-- So a request whose pages are not to be had is not answered as it should be. -/
theorem Backed.unanswered (frames : Bytes) (hb : Backed k bs) (hpos : 1 ≤ size)
    (hno : ¬ Available dir k size) : ¬ Answered dir k size frames := by
  rintro ⟨ptr, k', hret, -, hnull⟩
  exact hb.nonnull hpos hret (hnull hno).1

end

/-! ## 5. Runs -/

/-- `malloc_free` changes the headers only. -/
theorem mallocFree_state {h h' : Heap} {ptr : Nat} (hret : mallocFree h ptr = some h') :
    h' = { h with mem := h'.mem } := by
  unfold mallocFree at hret
  split at hret
  · cases hret
  · split at hret
    · obtain ⟨m, -, rfl⟩ := Option.map_eq_some_iff.mp hret
      rfl
    · obtain rfl := Option.some.inj hret
      rfl

/-- **One call keeps the heap in order.** -/
theorem backed_step {dir : Nat} {k k' : Space} {c : Call} (hb : ∃ bs, Backed k bs)
    (hok : CallServed dir k c) (hstep : SpaceStep dir k c k') : ∃ bs, Backed k' bs := by
  obtain ⟨bs, hb⟩ := hb
  cases hstep with
  | @malloc _ size ptr frames hpos hret =>
    obtain ⟨ptr', k₁, bs₁, hnext, hb₁⟩ := hb.granted frames hpos hok
    have hhead : k.heap.mallocListHead ≠ 0 := by
      rw [hb.laid.head]
      exact Nat.pos_iff_ne_zero.mp hb.laid.start
    unfold Space.syscallMalloc at hret
    rw [if_neg hhead, Option.bind_some, hnext, Option.bind_some] at hret
    obtain ⟨m, hm, heq⟩ := Option.map_eq_some_iff.mp hret
    obtain ⟨rfl, rfl⟩ := Prod.mk.inj heq
    exact ⟨_, hb₁.laid.merge hm, hb₁.aligned, hb₁.pages⟩
  | @free ptr h hret =>
    have hstate := mallocFree_state hret
    have hpages : ∀ i < h.totalMallocPages,
        ∃ block ≠ 0, (h.mallocStart + i * pageSize, block) ∈ k.pages := by
      rw [hstate]
      exact hb.pages
    have haligned : h.mallocStart % pageSize = 0 := by
      rw [hstate]
      exact hb.aligned
    rcases mallocFree_laid hb.laid hret with ⟨xs, b, ys, -, -, -, -, hl'⟩ | ⟨hsame, -⟩
    · exact ⟨_, hl', haligned, hpages⟩
    · exact ⟨bs, hsame ▸ hb.laid, haligned, hpages⟩

/-- The heap of `init_malloc`, when it got a block. -/
theorem initMalloc_backed {dir : Nat} {machine : Machine} {mem frames : Bytes} {k : Space}
    (hinit : Space.initMalloc dir machine mem frames = some k) (hgot : k.pages ≠ []) :
    k.heap = initMalloc mem frames ∧ Backed k [⟨4084, true⟩] := by
  unfold Space.initMalloc Space.mapAt at hinit
  obtain ⟨r, -, rfl⟩ := Option.map_eq_some_iff.mp hinit
  refine ⟨rfl, initMalloc_laid mem frames, (by decide : 0x400000 % 4096 = 0), fun i hi => ?_⟩
  have hone : i < 1 := hi
  simp only at hgot ⊢
  split
  · next hblock =>
    obtain rfl : i = 0 := by omega
    exact ⟨_, hblock.1, List.mem_singleton.mpr rfl⟩
  · next hno =>
    rw [if_neg hno] at hgot
    exact absurd rfl hgot

/-- **Every request that meets the condition is answered**, in every run from `init_malloc` whose
requests leave the heap in order. -/
theorem requests_answered (dir : Nat) (machine : Machine) (mem frames : Bytes) (k₀ k : Space)
    (hinit : Space.initMalloc dir machine mem frames = some k₀) (hgot : k₀.pages ≠ [])
    (hrun : Reach (SpaceStep dir) (CallServed dir) k₀ k) (size : Nat) (contents : Bytes)
    (hpos : 1 ≤ size) (hok : Answerable dir k size) : Answered dir k size contents := by
  obtain ⟨bs, hb⟩ := hrun.invariant ⟨_, (initMalloc_backed hinit hgot).2⟩
    fun _ _ _ hb hok hstep => backed_step hb hok hstep
  exact hb.answered contents hpos hok

/-- The heap over 64 blocks of memory. -/
def firstSpace : Space :=
  (Space.initMalloc 4096 Memory.emptyMachine (fun _ => 0) fun _ => 0).getD
    ⟨initMalloc (fun _ => 0) fun _ => 0, Memory.emptyMachine, []⟩

theorem firstSpace_init :
    Space.initMalloc 4096 Memory.emptyMachine (fun _ => 0) (fun _ => 0) = some firstSpace := by
  have hsome : (Space.initMalloc 4096 Memory.emptyMachine (fun _ => 0) fun _ => 0).isSome := by
    decide +kernel
  obtain ⟨k, hk⟩ := Option.isSome_iff_exists.mp hsome
  unfold firstSpace
  rw [hk, Option.getD_some]

/-- The only node of that heap. -/
theorem firstSpace_firstFit {size cur : Nat}
    (h : FirstFit firstSpace.heap.mem size firstSpace.heap.mallocListHead cur) :
    nodeSize firstSpace.heap.mem cur = 4084 ∧ nodeNext firstSpace.heap.mem cur = 0 := by
  obtain ⟨hnode, -⟩ := (initMalloc_backed firstSpace_init (by decide +kernel)).2.laid.tiles
  cases h with
  | fits => exact ⟨hnode.size, hnode.next⟩
  | last => exact ⟨hnode.size, hnode.next⟩
  | next _ hnext => exact absurd hnode.next hnext

/-- A request for which the heap grows by a page. -/
theorem requests_answered_grown : Answered 4096 firstSpace 5000 fun _ => 0 := by
  refine requests_answered 4096 Memory.emptyMachine (fun _ => 0) (fun _ => 0) firstSpace firstSpace
    firstSpace_init (by decide +kernel) .refl 5000 _ (by decide) fun cur hcur => ?_
  obtain ⟨hsize, hnext⟩ := firstSpace_firstFit hcur
  rw [hsize]
  have hblock : (allocateBlocks firstSpace.machine.manager 1).1 ≠ 0 := by decide +kernel
  have hmapped := @Memory.eq_some_of_mapped _ firstSpace.machine true
    (by decide +kernel : (mapAddress mapFuel { firstSpace.machine with
      manager := (allocateBlocks firstSpace.machine.manager 1).2 } 4096
        (allocateBlocks firstSpace.machine.manager 1).1 0x401000 pageFlags).map (·.1) = some true)
  exact Or.inr (Or.inr ⟨by decide, by decide +kernel, hblock, _, hmapped, trivial⟩)

/-- **A request of 2 MiB**: the page count, a byte, never gets there. -/
theorem request_never_answered : ¬ ∀ (dir : Nat) (machine : Machine) (mem frames : Bytes)
    (k₀ k : Space), Space.initMalloc dir machine mem frames = some k₀ → k₀.pages ≠ [] →
      Reach (SpaceStep dir) (fun _ _ => True) k₀ k → ∀ (size : Nat) (contents : Bytes),
        1 ≤ size → size < 4294967296 → Answered dir k size contents := by
  intro hall
  obtain ⟨ptr, k', hret, -⟩ := hall 4096 Memory.emptyMachine (fun _ => 0) (fun _ => 0) firstSpace
    firstSpace firstSpace_init (by decide +kernel) .refl 0x200000 (fun _ => 0) (by decide)
    (by decide)
  have hl := (initMalloc_backed firstSpace_init (by decide +kernel)).2.laid
  obtain ⟨xs, b, ys, hsplit, hscan⟩ := hl.scanned 0x200000
  obtain ⟨hsize, -⟩ := firstSpace_firstFit (scan_firstFit hscan)
  have hcount : numPages 4084 0x200000 = none := by decide +kernel
  have hother : ¬ 0x200000 = 4084 := by decide
  have hsmall : ¬ 4084 > u32 (0x200000 + headerSize) := by decide
  unfold Space.mallocNextBlock at hret
  simp only [if_neg (by decide : ¬ 0x200000 = 0), if_neg hl.head_size, Option.bind_some, hscan,
    hsize, if_neg hother, if_neg hsmall, hcount, Option.bind_none] at hret
  cases hret

end AmateurOs.Malloc
