/-
# The heap and the stack of a program

`create_process` maps the user stack in the page behind the one in which the program buffer ends,
and the arguments in the next.  The buffer is a block of the heap, and the heap grows at its end
page by page: nothing keeps its end behind the arguments, so that the first page it grows by can be
the page of the stack (`stack_stolen`).

A `Space` is the heap next to the machine in which its pages are mapped.  A run is what happens
between `init_malloc` and the exit of a program: requests to the heap, the start of the program,
file buffers that are mapped, and stores of any bytes in memory outside the tables.  `stack_kept`
is the result for runs in which the pages that the heap grows by end in front of the stack and the
arguments or start behind them, and in which no page table lies in the way.  The invariant is `Window`: between 4 MiB, where the heap starts,
and 1 GiB, where file buffers start, only the heap, the stack, the arguments and the frames of page
tables are mapped; what lies behind the end of the heap is fresh (`Window.unmapped`).
-/
import AmateurOs.Exec.Create

namespace AmateurOs.Exec

open AmateurOs.Lib
open AmateurOs.Malloc (Heap nodeSize scan numPages mallocInit mallocNextBlock mallocFree
  syscallMalloc syscallFree initMalloc headerSize)
open AmateurOs.Memory

/-! ## 1. The pages of a request -/

/-- The address of the next page of the heap. -/
def heapEnd (h : Heap) : Nat := u32 (h.mallocVirtAddress + u32 (h.totalMallocPages * pageSize))

/-- The number of pages by which `malloc_next_block` grows the heap. -/
def grownPages (h : Heap) (size : Nat) : Nat :=
  if size = 0 then 0
  else
    match scan h.mem size h.mallocListHead with
    | none => 0
    | some cur =>
      if size = nodeSize h.mem cur then 0
      else if nodeSize h.mem cur > u32 (size + headerSize) then 0
      else (numPages (nodeSize h.mem cur) size).getD 0

/-- The loop that maps the new pages. -/
def mapHeapPages (dir : Nat) : Nat → Machine → Nat → Option Machine
  | 0, m, _ => some m
  | n + 1, m, virt =>
    (mapNewPage m dir virt).bind fun m => mapHeapPages dir n m (u32 (virt + pageSize))

/-- The pages that `malloc_init` maps, from consecutive blocks. -/
def initPages (dir : Nat) (m : Machine) (h : Heap) (bytes : Nat) : Option Machine :=
  let pages := bytes / pageSize + (if bytes % pageSize > 0 then 1 else 0)
  let allocated := allocateBlocks m.manager pages
  (List.range pages).foldlM (fun m i => (mapAddress mapFuel m dir (u32 (allocated.1 + i * pageSize))
    (u32 (h.mallocVirtAddress + i * pageSize)) userFlags).map (·.2)) { m with manager := allocated.2 }

/-- `malloc_init` on a machine, when it is needed. -/
def initHeap (dir : Nat) (needed : Bool) (bytes : Nat) (frames : Bytes) (s : Heap × Machine) :
    Option (Heap × Machine) :=
  if needed then (initPages dir s.2 s.1 bytes).map fun m => (mallocInit s.1 bytes frames, m)
  else some s

/-- The heap and the machine when `malloc_next_block` looks for a block. -/
def readyHeap (dir : Nat) (h : Heap) (m : Machine) (bytes : Nat) (frames : Bytes) :
    Option (Heap × Machine) :=
  (initHeap dir (h.mallocListHead == 0) bytes frames (h, m)).bind fun s =>
    initHeap dir (bytes != 0 && nodeSize s.1.mem s.1.mallocListHead == 0) bytes frames s

/-- The pages that `syscall_malloc` maps. -/
def requestPages (dir : Nat) (h : Heap) (m : Machine) (bytes : Nat) (frames : Bytes) :
    Option Machine :=
  (readyHeap dir h m bytes frames).bind fun s =>
    mapHeapPages dir (grownPages s.1 bytes) s.2 (heapEnd s.1)

/-! ## 2. Runs -/

/-- The machine, the heap and the address of the stack of the program, if there is one. -/
structure Space where
  machine : Machine
  heap : Heap
  stack : Option Nat

/-- What can happen. -/
inductive Event
  /-- `malloc`, of the kernel or the program. -/
  | malloc (bytes : Nat) (frames : Bytes)
  | free (ptr : Nat)
  /-- `create_process` of a program whose buffer has that size; `mem` and `memory` are what
  addresses and frames hold when it was loaded. -/
  | create (pgmSize : Nat) (frames mem memory : Bytes)
  /-- A page of a file buffer is mapped. -/
  | file (virt : Nat)
  /-- Stores in memory outside the tables. -/
  | store (mem memory : Bytes)

/-- Memory with other bytes outside the directory and its tables. -/
def SameTables (dir : Nat) (memory memory' : Bytes) : Prop :=
  ∀ p, InTables memory dir p → memory' p = memory p

/-- The step of an event. -/
inductive Step (dir : Nat) : Space → Event → Space → Prop
  | malloc {c : Space} {bytes ptr : Nat} {frames : Bytes} {h : Heap} {m : Machine}
      (hret : syscallMalloc c.heap bytes frames = some (ptr, h))
      (hpages : requestPages dir c.heap c.machine bytes frames = some m) :
      Step dir c (.malloc bytes frames) ⟨m, h, c.stack⟩
  | free {c : Space} {ptr : Nat} {h : Heap} (hret : syscallFree c.heap ptr = some h) :
      Step dir c (.free ptr) ⟨c.machine, h, c.stack⟩
  | create {c : Space} {pgmSize ptr stack : Nat} {frames mem memory : Bytes} {h : Heap}
      {m m' m'' : Machine}
      (hnone : c.stack = none) (hret : syscallMalloc c.heap pgmSize frames = some (ptr, h))
      (hpages : requestPages dir c.heap c.machine pgmSize frames = some m)
      (hload : SameTables dir m.memory memory)
      (hplace : stack = u32 (ptr + pgmSize + pageSize))
      (hstack : mapNewPage { m with memory := memory } dir stack = some m')
      (hargs : mapNewPage m' dir (u32 (stack + pageSize)) = some m'') :
      Step dir c (.create pgmSize frames mem memory) ⟨m'', { h with mem := mem }, some stack⟩
  | file {c : Space} {virt : Nat} {m : Machine} (hmap : mapNewPage c.machine dir virt = some m) :
      Step dir c (.file virt) ⟨m, c.heap, c.stack⟩
  | store {c : Space} {mem memory : Bytes} (hsame : SameTables dir c.machine.memory memory) :
      Step dir c (.store mem memory)
        ⟨{ c.machine with memory := memory }, { c.heap with mem := mem }, c.stack⟩

/-- A page is that of the stack or of the arguments. -/
def OnStack (stack : Option Nat) (page : Nat) : Prop :=
  ∃ s, stack = some s ∧ (page = s / 4096 ∨ page = u32 (s + pageSize) / 4096)

/-! ## 3. The condition -/

/-- The blocks that are taken for tables when a new page is mapped at `virt`. -/
def pageTables (m : Machine) (dir virt : Nat) : List Nat :=
  newTables mapFuel { m with manager := (allocateBlocks m.manager 1).2 } dir virt

/-- A new page can be mapped: the frames taken for tables are clean, and their own addresses are
not those of the stack or the arguments. -/
structure PageOk (m : Machine) (dir virt : Nat) (stack : Option Nat) : Prop where
  clean : ∀ block ∈ pageTables m dir virt, Clean m.memory dir userFlags block
  apart : ∀ block ∈ pageTables m dir virt, ¬ OnStack stack (block / 4096)

/-- **When a request does not reach the stack**: the heap is not started anew and ends below the
file buffers; the stack and the arguments lie in front of its end or behind the pages it grows by,
and no page table has the address of one of these pages. -/
structure RequestOk (dir : Nat) (c : Space) (bytes : Nat) : Prop where
  head : c.heap.mallocListHead ≠ 0
  size : nodeSize c.heap.mem c.heap.mallocListHead ≠ 0
  below : heapEnd c.heap + grownPages c.heap bytes * 4096 ≤ 0x40000000
  stack : ∀ page, OnStack c.stack page → page < heapEnd c.heap / 4096 ∨
    heapEnd c.heap / 4096 + grownPages c.heap bytes ≤ page
  pages : ∀ i < grownPages c.heap bytes, ∀ m,
    mapHeapPages dir i c.machine (heapEnd c.heap) = some m →
    PageOk m dir (heapEnd c.heap + i * 4096) c.stack ∧
      ¬ IsTable m.memory dir (heapEnd c.heap + i * 4096)

/-- File buffers are mapped from 1 GiB on. -/
def InBuffers (_ : Space) : Event → Prop
  | .file virt => 0x40000000 ≤ virt ∧ virt < 4294967296
  | _ => True

/-- The condition on an event: requests do not reach the stack, and the frames that are taken for
tables when another page is mapped are clean and not in the way. -/
def EventOk (dir : Nat) (c : Space) : Event → Prop
  | .malloc bytes _ => RequestOk dir c bytes
  | .free _ => True
  | .create pgmSize frames _ memory => RequestOk dir c pgmSize ∧
      ∀ ptr h m m', syscallMalloc c.heap pgmSize frames = some (ptr, h) →
        requestPages dir c.heap c.machine pgmSize frames = some m →
        mapNewPage { m with memory := memory } dir (u32 (ptr + pgmSize + pageSize)) = some m' →
        PageOk { m with memory := memory } dir (u32 (ptr + pgmSize + pageSize)) none ∧
          PageOk m' dir (u32 (u32 (ptr + pgmSize + pageSize) + pageSize)) none
  | .file virt => InBuffers c (.file virt) ∧ ¬ OnStack c.stack (virt / 4096) ∧
      PageOk c.machine dir virt c.stack
  | .store _ _ => True

/-! ## 4. Mapping a new page -/

/-- What is mapped in the window, when the heap ends before `page`. -/
structure Window (m : Machine) (dir : Nat) (stack : Option Nat) (page : Nat) : Prop where
  tables : DistinctTables m.memory dir
  inUse : TablesInUse m dir
  limit : m.manager.maxBlocks ≤ blockLimit
  mapped : ∀ w, 0x400000 ≤ w → w < 0x40000000 → getPhysicalAddress m.memory dir w ≠ 0 →
    w / 4096 < page ∨ OnStack stack (w / 4096) ∨ IsTable m.memory dir (w / 4096 * 4096)

/-- What mapping a new page changes. -/
structure PageAdded (m : Machine) (dir virt : Nat) (stack : Option Nat) (m' : Machine) : Prop where
  tables : DistinctTables m'.memory dir
  inUse : TablesInUse m' dir
  limit : m'.manager.maxBlocks ≤ blockLimit
  kept : ∀ block, IsTable m.memory dir block → IsTable m'.memory dir block
  others : ∀ w < 4294967296, w / 4096 ≠ virt / 4096 →
    getPhysicalAddress m'.memory dir w = getPhysicalAddress m.memory dir w ∨
      IsTable m'.memory dir (w / 4096 * 4096)
  onStack : ∀ w < 4294967296, w / 4096 ≠ virt / 4096 → OnStack stack (w / 4096) →
    getPhysicalAddress m'.memory dir w = getPhysicalAddress m.memory dir w

theorem pageAdded_mapNewPage {m m' : Machine} {dir virt page : Nat} {stack stack' : Option Nat}
    (hdir : IsDirectory dir) (h : Window m dir stack' page) (hok : PageOk m dir virt stack)
    (hvirt : virt < 4294967296) (hmap : mapNewPage m dir virt = some m') :
    PageAdded m dir virt stack m' := by
  obtain ⟨r, hr, rfl⟩ := Option.map_eq_some_iff.mp hmap
  obtain ⟨hgrows, hsame, htaken⟩ := allocateBlocks_grows h.limit
  have hphys : (allocateBlocks m.manager 1).1 < 4294967296 := by
    by_cases hnull : (allocateBlocks m.manager 1).1 = 0
    · omega
    · obtain ⟨b, htake, -⟩ := htaken hnull
      have hbelow := htake.below
      have hlimit := h.limit
      rw [htake.address]
      unfold blockLimit at hlimit
      unfold blockSize
      omega
  have hlimit : ({ m with manager := (allocateBlocks m.manager 1).2 } : Machine).manager.maxBlocks
      ≤ blockLimit := hsame.trans_le h.limit
  have hinUse : TablesInUse { m with manager := (allocateBlocks m.manager 1).2 } dir :=
    ⟨hgrows _ h.inUse.directory, fun v hv hv0 => hgrows _ (h.inUse.table v hv hv0)⟩
  have hadds := adds_mapAddress hdir (by decide) mapFuel _ _ virt r hphys hvirt hlimit
    (h.tables : DistinctTables ({ m with manager := (allocateBlocks m.manager 1).2 } :
      Machine).memory dir) hinUse hok.clean hr
  -- An address is in the frame of a new table, or keeps its translation.
  have hcases : ∀ w < 4294967296, w / 4096 ≠ virt / 4096 →
      getPhysicalAddress r.2.memory dir w = getPhysicalAddress m.memory dir w ∨
        ∃ block ∈ pageTables m dir virt, w / 4096 = block / 4096 := by
    intro w hw hpage
    by_cases hin : ∃ block ∈ pageTables m dir virt, w / 4096 = block / 4096
    · exact Or.inr hin
    · exact Or.inl (hadds.others w hw hpage fun block hblock heq => hin ⟨block, hblock, heq⟩)
  refine ⟨hadds.tables, hadds.inUse, hadds.maxBlocks.trans_le hlimit,
    fun block hblock => hblock.kept hadds.kept, fun w hw hpage => ?_, fun w hw hpage hstack => ?_⟩
  · rcases hcases w hw hpage with hsame | ⟨block, hblock, heq⟩
    · exact Or.inl hsame
    · have haligned := (mem_newTables hlimit hblock).1
      have hframe : w / 4096 * 4096 = block := by omega
      exact Or.inr (hframe.symm ▸ hadds.frames block hblock)
  · rcases hcases w hw hpage with hsame | ⟨block, hblock, heq⟩
    · exact hsame
    · exact absurd (heq ▸ hstack) (hok.apart block hblock)

/-- The window after a page was mapped that belongs to the heap, to the stack or is outside. -/
theorem Window.add {m m' : Machine} {dir virt page page' : Nat} {stack stack' stack'' : Option Nat}
    (h : Window m dir stack page) (hadded : PageAdded m dir virt stack'' m') (hle : page ≤ page')
    (hstack : ∀ q, OnStack stack q → OnStack stack' q)
    (hplace : 0x400000 ≤ virt / 4096 * 4096 → virt < 0x40000000 →
      virt / 4096 < page' ∨ OnStack stack' (virt / 4096)) : Window m' dir stack' page' := by
  refine ⟨hadded.tables, hadded.inUse, hadded.limit, fun w hlow hhigh hne => ?_⟩
  by_cases hpage : w / 4096 = virt / 4096
  · rw [hpage]
    rcases hplace (by omega) (by omega) with hheap | hon
    · exact Or.inl hheap
    · exact Or.inr (Or.inl hon)
  · rcases hadded.others w (by omega) hpage with hsame | htable
    · rcases h.mapped w hlow hhigh (hsame ▸ hne) with hheap | hon | htable
      · exact Or.inl (Nat.lt_of_lt_of_le hheap hle)
      · exact Or.inr (Or.inl (hstack _ hon))
      · exact Or.inr (Or.inr (hadded.kept _ htable))
    · exact Or.inr (Or.inr htable)

/-- Stores outside the tables change no table. -/
theorem directoryEntry_same {dir v : Nat} {memory memory' : Bytes} (hdir : IsDirectory dir)
    (h : SameTables dir memory memory') (hv : v < 4294967296) :
    directoryEntry memory' dir v = directoryEntry memory dir v := by
  have hdirmod := hdir.aligned
  exact directoryEntry_congr hv fun p hlow hhigh => h p (Or.inl (by omega))

/-- Stores outside the tables change no translation. -/
theorem getPhysicalAddress_same {dir w : Nat} {memory memory' : Bytes} (hdir : IsDirectory dir)
    (h : SameTables dir memory memory') (hw : w < 4294967296) :
    getPhysicalAddress memory' dir w = getPhysicalAddress memory dir w :=
  getPhysicalAddress_congr (directoryEntry_same hdir h hw) fun hentry p hp =>
    h p (Or.inr ⟨w, hw, hentry, hp⟩)

theorem isTable_same {dir block : Nat} {memory memory' : Bytes} (hdir : IsDirectory dir)
    (h : SameTables dir memory memory') (htable : IsTable memory dir block) :
    IsTable memory' dir block :=
  htable.kept fun _ hv _ => directoryEntry_same hdir h hv

/-- The window after stores outside the tables. -/
theorem Window.store {m : Machine} {dir page : Nat} {stack : Option Nat} {memory : Bytes}
    (hdir : IsDirectory dir) (h : Window m dir stack page)
    (hsame : SameTables dir m.memory memory) :
    Window { m with memory := memory } dir stack page := by
  have hentry := fun v hv => @directoryEntry_same dir v m.memory memory hdir hsame hv
  refine ⟨⟨fun v hv => ?_, fun v hv w hw => ?_⟩, ⟨h.inUse.directory, fun v hv => ?_⟩, h.limit,
    fun w hlow hhigh hne => ?_⟩
  · rw [hentry v hv]
    exact h.tables.apart v hv
  · rw [hentry v hv, hentry w hw]
    exact h.tables.distinct v hv w hw
  · rw [hentry v hv]
    exact h.inUse.table v hv
  · rw [getPhysicalAddress_same hdir hsame (by omega)] at hne
    rcases h.mapped w hlow hhigh hne with hheap | hon | htable
    · exact Or.inl hheap
    · exact Or.inr (Or.inl hon)
    · exact Or.inr (Or.inr (isTable_same hdir hsame htable))

/-! ## 5. Growing the heap -/

/-- The page at the end of the heap is not mapped, when the stack and the tables are elsewhere. -/
theorem Window.unmapped {m : Machine} {dir virt : Nat} {stack : Option Nat}
    (h : Window m dir stack (virt / 4096)) (haligned : virt % 4096 = 0) (hlow : 0x400000 ≤ virt)
    (hhigh : virt < 0x40000000) (hstack : ¬ OnStack stack (virt / 4096))
    (hfree : ¬ IsTable m.memory dir virt) : getPhysicalAddress m.memory dir virt = 0 := by
  by_contra hne
  rcases h.mapped virt hlow hhigh hne with hlt | hon | htable
  · exact Nat.lt_irrefl _ hlt
  · exact hstack hon
  · exact hfree ((by omega : virt / 4096 * 4096 = virt) ▸ htable)

/-- **Growing the heap** moves its end in the window and keeps the stack, by induction on the
number of pages. -/
theorem mapHeapPages_window {dir : Nat} (hdir : IsDirectory dir) {stack : Option Nat} :
    ∀ (n : Nat) (m m' : Machine) (virt : Nat), Window m dir stack (virt / 4096) →
    virt % 4096 = 0 → virt + n * 4096 ≤ 0x40000000 →
    (∀ page, OnStack stack page → page < virt / 4096 ∨ virt / 4096 + n ≤ page) →
    (∀ i < n, ∀ mi, mapHeapPages dir i m virt = some mi → PageOk mi dir (virt + i * 4096) stack) →
    mapHeapPages dir n m virt = some m' →
    Window m' dir stack ((virt + n * 4096) / 4096) ∧
    ∀ w < 4294967296, OnStack stack (w / 4096) →
      getPhysicalAddress m'.memory dir w = getPhysicalAddress m.memory dir w := by
  intro n
  induction n with
  | zero =>
    intro m m' virt hw _ _ _ _ hmap
    obtain rfl := Option.some.inj hmap
    rw [Nat.zero_mul, Nat.add_zero]
    exact ⟨hw, fun _ _ _ => rfl⟩
  | succ n ih =>
    intro m m' virt hw haligned hhigh hstack hok hmap
    obtain ⟨m₁, hfirst, hrest⟩ := Option.bind_eq_some_iff.mp hmap
    have hpage := hok 0 (Nat.succ_pos n) m rfl
    rw [Nat.zero_mul, Nat.add_zero] at hpage
    have hadded := pageAdded_mapNewPage hdir hw hpage (by omega) hfirst
    have hnext : u32 (virt + pageSize) = virt + 4096 := u32_eq (by unfold pageSize; omega)
    rw [hnext] at hrest
    have hw₁ : Window m₁ dir stack ((virt + 4096) / 4096) := by
      refine hw.add hadded (by omega) (fun _ hq => hq) fun _ _ => Or.inl ?_
      omega
    have haddress : ∀ i, virt + 4096 + i * 4096 = virt + (i + 1) * 4096 := fun i => by omega
    obtain ⟨hlast, hkept⟩ := ih m₁ m' (virt + 4096) hw₁ (by omega) (by omega)
      (fun page hpage => by have hside := hstack page hpage; omega)
      (fun i hi mi hmi => haddress i ▸ hok (i + 1) (by omega) mi
        (Option.bind_eq_some_iff.mpr ⟨m₁, hfirst, hnext.symm ▸ hmi⟩)) hrest
    rw [haddress] at hlast
    refine ⟨hlast, fun w hw' hon => ?_⟩
    have hside := hstack _ hon
    exact (hkept w hw' hon).trans (hadded.onStack w hw' (by omega) hon)

/-! ## 6. The statics of the heap -/

/-- The heap has grown by `n` pages: the other statics are as they were. -/
structure HeapGrown (h h' : Heap) (n : Nat) : Prop where
  head : h'.mallocListHead = h.mallocListHead
  virt : h'.mallocVirtAddress = h.mallocVirtAddress
  start : h'.mallocStart = h.mallocStart
  total : h'.totalMallocPages = u32 (h.totalMallocPages + n)

/-- A request that does not start the heap anew moves its end by the pages it grows by. -/
theorem heapGrown_malloc {h h' : Heap} {bytes ptr : Nat} {frames : Bytes}
    (hhead : h.mallocListHead ≠ 0) (hsize : nodeSize h.mem h.mallocListHead ≠ 0)
    (htotal : h.totalMallocPages < 4294967296)
    (hret : syscallMalloc h bytes frames = some (ptr, h')) :
    HeapGrown h h' (grownPages h bytes) := by
  have hsame : h.totalMallocPages = u32 (h.totalMallocPages + 0) := (u32_eq htotal).symm
  unfold syscallMalloc at hret
  simp only [if_neg hhead] at hret
  split at hret
  · exact absurd hret (by simp)
  next p h₁ hnext =>
  obtain ⟨mem, -, heq⟩ := Option.map_eq_some_iff.mp hret
  obtain ⟨-, rfl⟩ := Prod.mk.inj heq
  unfold mallocNextBlock at hnext
  unfold grownPages
  simp only [if_neg hsize] at hnext
  split at hnext
  · next hzero =>
    obtain ⟨-, rfl⟩ := Prod.mk.inj (Option.some.inj hnext)
    rw [if_pos hzero]
    exact ⟨rfl, rfl, rfl, hsame⟩
  next hzero =>
  rw [if_neg hzero]
  cases hscan : scan h.mem bytes h.mallocListHead with
  | none =>
    rw [hscan] at hnext
    exact absurd hnext (by simp)
  | some cur =>
    simp only [hscan] at hnext ⊢
    split at hnext
    · next hfits =>
      obtain ⟨-, rfl⟩ := Prod.mk.inj (Option.some.inj hnext)
      rw [if_pos hfits]
      exact ⟨rfl, rfl, rfl, hsame⟩
    next hfits =>
    rw [if_neg hfits]
    split at hnext
    · next hlarge =>
      obtain ⟨-, rfl⟩ := Prod.mk.inj (Option.some.inj hnext)
      rw [if_pos hlarge]
      exact ⟨rfl, rfl, rfl, hsame⟩
    next hlarge =>
    rw [if_neg hlarge]
    cases hpages : numPages (nodeSize h.mem cur) bytes with
    | none =>
      rw [hpages] at hnext
      exact absurd hnext (by simp)
    | some n =>
      rw [hpages] at hnext
      obtain ⟨-, rfl⟩ := Prod.mk.inj (Option.some.inj hnext)
      exact ⟨rfl, rfl, rfl, rfl⟩

/-- `free` leaves the statics as they are. -/
theorem heapGrown_free {h h' : Heap} {ptr : Nat} (htotal : h.totalMallocPages < 4294967296)
    (hret : syscallFree h ptr = some h') : HeapGrown h h' 0 := by
  have hsame : h.totalMallocPages = u32 (h.totalMallocPages + 0) := (u32_eq htotal).symm
  unfold syscallFree mallocFree at hret
  split at hret
  · exact absurd hret (by simp)
  split at hret
  · obtain ⟨mem, -, rfl⟩ := Option.map_eq_some_iff.mp hret
    exact ⟨rfl, rfl, rfl, hsame⟩
  · obtain rfl := Option.some.inj hret
    exact ⟨rfl, rfl, rfl, hsame⟩

/-- The heap is used as it is. -/
theorem readyHeap_started {dir : Nat} {h : Heap} {m : Machine} {bytes : Nat} {frames : Bytes}
    (hhead : h.mallocListHead ≠ 0) (hsize : nodeSize h.mem h.mallocListHead ≠ 0) :
    readyHeap dir h m bytes frames = some (h, m) := by
  unfold readyHeap initHeap
  simp [hhead, hsize]

/-! ## 7. Runs keep the stack -/

/-- `init_malloc` has just started the heap: its first page is mapped at 4 MiB, where only tables
were mapped before. -/
def Started (dir : Nat) (c : Space) : Prop :=
  ∃ m mem frames, Window m dir none (0x400000 / 4096) ∧ PageOk m dir 0x400000 none ∧
    mapNewPage m dir 0x400000 = some c.machine ∧ c.heap = initMalloc mem frames ∧ c.stack = none

/-- The invariant of runs. -/
structure Inv (dir : Nat) (c : Space) : Prop where
  window : Window c.machine dir c.stack (heapEnd c.heap / 4096)
  start : c.heap.mallocVirtAddress = 0x400000
  below : 0x400000 + c.heap.totalMallocPages * 4096 ≤ 0x40000000

theorem heapEnd_eq {h : Heap} (hstart : h.mallocVirtAddress = 0x400000)
    (hbelow : 0x400000 + h.totalMallocPages * 4096 ≤ 0x40000000) :
    heapEnd h = 0x400000 + h.totalMallocPages * 4096 := by
  unfold heapEnd pageSize
  rw [hstart, u32_eq (n := h.totalMallocPages * 4096) (by omega), u32_eq (by omega)]

/-- The end of the heap after it grew by `n` pages. -/
theorem heapEnd_next {h h' : Heap} {n : Nat} (hstart : h.mallocVirtAddress = 0x400000)
    (hbelow : 0x400000 + h.totalMallocPages * 4096 ≤ 0x40000000) (hgrown : HeapGrown h h' n)
    (hle : heapEnd h + n * 4096 ≤ 0x40000000) :
    h'.mallocVirtAddress = 0x400000 ∧ 0x400000 + h'.totalMallocPages * 4096 ≤ 0x40000000 ∧
      heapEnd h' = heapEnd h + n * 4096 := by
  have htotal := hgrown.total
  rw [heapEnd_eq hstart hbelow] at hle ⊢
  rw [u32_eq (by omega)] at htotal
  rw [Nat.add_assoc, ← Nat.add_mul, ← htotal] at hle ⊢
  exact ⟨hgrown.virt.trans hstart, hle, heapEnd_eq (hgrown.virt.trans hstart) hle⟩

theorem inv_started {dir : Nat} {c : Space} (hdir : IsDirectory dir) (h : Started dir c) :
    Inv dir c := by
  obtain ⟨m, mem, frames, hwindow, hok, hmap, hheap, hstack⟩ := h
  have hstart : c.heap.mallocVirtAddress = 0x400000 := by rw [hheap]; rfl
  have htotal : c.heap.totalMallocPages = 1 := by rw [hheap]; rfl
  refine ⟨?_, hstart, by omega⟩
  have hadded := pageAdded_mapNewPage hdir hwindow hok (by decide) hmap
  rw [heapEnd_eq hstart (by omega), htotal, hstack]
  exact hwindow.add hadded (by decide) (fun _ hq => hq) fun _ _ => Or.inl (by decide)

/-- **A request** keeps the invariant and the translations of the stack. -/
theorem request_kept {dir : Nat} {c : Space} {bytes ptr : Nat} {frames : Bytes} {h : Heap}
    {m : Machine} (hdir : IsDirectory dir) (hinv : Inv dir c) (hok : RequestOk dir c bytes)
    (hret : syscallMalloc c.heap bytes frames = some (ptr, h))
    (hpages : requestPages dir c.heap c.machine bytes frames = some m) :
    Inv dir ⟨m, h, c.stack⟩ ∧ ∀ w < 4294967296, OnStack c.stack (w / 4096) →
      getPhysicalAddress m.memory dir w = getPhysicalAddress c.machine.memory dir w := by
  obtain ⟨hwindow, hstart, hbelow⟩ := hinv
  have hend := heapEnd_eq hstart hbelow
  have hgrown := heapGrown_malloc hok.head hok.size (by omega) hret
  unfold requestPages at hpages
  rw [readyHeap_started hok.head hok.size] at hpages
  obtain ⟨hlast, hkept⟩ := mapHeapPages_window hdir (grownPages c.heap bytes) c.machine m
    (heapEnd c.heap) hwindow (by omega) hok.below hok.stack
    (fun i hi mi hmi => (hok.pages i hi mi hmi).1) hpages
  obtain ⟨hstart', hnext, hend'⟩ := heapEnd_next hstart hbelow hgrown hok.below
  exact ⟨⟨hend'.symm ▸ hlast, hstart', hnext⟩, hkept⟩

/-- **Growth maps fresh pages**: none of the pages that `malloc_next_block` maps for a request is
that of the stack or of the arguments, and none is mapped already. -/
def GrowthFresh (dir : Nat) (c : Space) (bytes : Nat) (frames : Bytes) : Prop :=
  ∀ h m, readyHeap dir c.heap c.machine bytes frames = some (h, m) →
    ∀ i < grownPages h bytes, ∀ mi, mapHeapPages dir i m (heapEnd h) = some mi →
      ¬ OnStack c.stack (u32 (heapEnd h + i * 4096) / 4096) ∧
        getPhysicalAddress mi.memory dir (u32 (heapEnd h + i * 4096)) = 0

/-- The stack stays, and with it the translations of its page and of the arguments. -/
def StackKept (dir : Nat) (c c' : Space) : Prop :=
  ∀ stack, c.stack = some stack → c'.stack = some stack ∧
    ∀ w < 4294967296, OnStack (some stack) (w / 4096) →
      getPhysicalAddress c'.machine.memory dir w = getPhysicalAddress c.machine.memory dir w

theorem growthFresh_request {dir : Nat} {c : Space} {bytes : Nat} (frames : Bytes)
    (hdir : IsDirectory dir) (hinv : Inv dir c) (hok : RequestOk dir c bytes) :
    GrowthFresh dir c bytes frames := by
  intro h m hready i hi mi hmi
  rw [readyHeap_started hok.head hok.size] at hready
  obtain ⟨rfl, rfl⟩ := Prod.mk.inj (Option.some.inj hready)
  obtain ⟨hwindow, hstart, hbelow⟩ := hinv
  have hend := heapEnd_eq hstart hbelow
  have hle : heapEnd c.heap + i * 4096 < 0x40000000 := Nat.lt_of_lt_of_le
    (Nat.add_lt_add_left (Nat.mul_lt_mul_of_pos_right hi (by decide)) _) hok.below
  have hoff : ¬ OnStack c.stack ((heapEnd c.heap + i * 4096) / 4096) := fun hon => by
    have hside := hok.stack _ hon
    omega
  obtain ⟨hwindow', -⟩ := mapHeapPages_window hdir i c.machine mi (heapEnd c.heap) hwindow
    (by omega) (Nat.le_of_lt hle)
    (fun page hon => (hok.stack page hon).imp_right fun hbehind => by omega)
    (fun j hj mj hmj => (hok.pages j (hj.trans hi) mj hmj).1) hmi
  rw [u32_eq (hle.trans (by decide))]
  exact ⟨hoff, hwindow'.unmapped (by omega) (by omega) hle hoff (hok.pages i hi mi hmi).2⟩

/-- **One step** keeps the invariant and the stack. -/
theorem step_kept {dir : Nat} {c c' : Space} {e : Event} (hdir : IsDirectory dir)
    (hinv : Inv dir c) (hok : EventOk dir c e) (hstep : Step dir c e c') :
    Inv dir c' ∧ StackKept dir c c' := by
  cases hstep with
  | malloc hret hpages =>
    obtain ⟨hinv', hkept⟩ := request_kept hdir hinv hok hret hpages
    exact ⟨hinv', fun stack hstack => ⟨hstack, fun w hw hon => hkept w hw (hstack ▸ hon)⟩⟩
  | free hret =>
    obtain ⟨hwindow, hstart, hbelow⟩ := hinv
    have hend := heapEnd_eq hstart hbelow
    obtain ⟨hstart', hbelow', hend'⟩ := heapEnd_next hstart hbelow
      (heapGrown_free (by omega) hret) (by omega)
    exact ⟨⟨hend'.symm ▸ hwindow, hstart', hbelow'⟩,
      fun stack hstack => ⟨hstack, fun _ _ _ => rfl⟩⟩
  | @create _ ptr stack _ mem memory h m m' _ hnone hret hpages hload hplace hstack hargs =>
    obtain ⟨hrequest, hpageOk⟩ := hok
    have hlt : stack < 4294967296 := by
      rw [hplace]
      exact u32_lt _
    have hboth := hpageOk ptr h m m' hret hpages
    rw [← hplace] at hboth
    obtain ⟨hfirst, hsecond⟩ := hboth hstack
    obtain ⟨hwindow, hstart, hbelow⟩ := (request_kept hdir hinv hrequest hret hpages).1
    refine ⟨⟨?_, hstart, hbelow⟩, fun stack hsome => absurd (hnone.symm.trans hsome) (by simp)⟩
    have hloaded := Window.store hdir hwindow hload
    have hadded := pageAdded_mapNewPage hdir hloaded hfirst hlt hstack
    rw [hnone] at hloaded
    have hstacked := hloaded.add hadded (Nat.le_refl _) (fun q hq => ?_)
      fun _ _ => Or.inr ⟨_, rfl, Or.inl rfl⟩
    · have hadded' := pageAdded_mapNewPage hdir hstacked hsecond (u32_lt _) hargs
      exact hstacked.add hadded' (Nat.le_refl _) (fun _ hq => hq)
        fun _ _ => Or.inr ⟨_, rfl, Or.inr rfl⟩
    · obtain ⟨s, hs, -⟩ := hq
      exact absurd hs (by simp)
  | file hmap =>
    obtain ⟨⟨hlow, hhigh⟩, hoff, hpageOk⟩ := hok
    have hadded := pageAdded_mapNewPage hdir hinv.window hpageOk hhigh hmap
    refine ⟨⟨hinv.window.add hadded (Nat.le_refl _) (fun _ hq => hq) fun _ hbelow => ?_,
      hinv.start, hinv.below⟩, fun stack hstack => ⟨hstack, fun w hw hon => ?_⟩⟩
    · exact absurd hbelow (Nat.not_lt.mpr hlow)
    · exact hadded.onStack w hw (fun heq => hoff (heq ▸ hstack ▸ hon)) (hstack ▸ hon)
  | store hsame =>
    exact ⟨⟨Window.store hdir hinv.window hsame, hinv.start, hinv.below⟩,
      fun stack hstack => ⟨hstack, fun w hw _ => getPhysicalAddress_same hdir hsame hw⟩⟩

/-- The invariant holds along a run, and the stack stays from any state of it. -/
theorem run_kept {dir : Nat} {c c' : Space} (hdir : IsDirectory dir) (hinv : Inv dir c)
    (h : Reach (Step dir) (EventOk dir) c c') : Inv dir c' ∧ StackKept dir c c' := by
  refine @Reach.invariant _ _ _ _ _ (fun s => Inv dir s ∧ StackKept dir c s) ?_ ?_ _ h
  · exact ⟨hinv, fun stack hstack => ⟨hstack, fun _ _ _ => rfl⟩⟩
  · rintro s e s' ⟨hs, hkept⟩ hok hstep
    obtain ⟨hs', hkept'⟩ := step_kept hdir hs hok hstep
    refine ⟨hs', fun stack hstack => ?_⟩
    obtain ⟨hmid, hsame⟩ := hkept stack hstack
    obtain ⟨hlast, hsame'⟩ := hkept' stack hmid
    exact ⟨hlast, fun w hw hon => (hsame' w hw hon).trans (hsame w hw hon)⟩

/-- **The heap does not take the stack's pages** in a run whose events meet the condition: a request
that meets it grows the heap by fresh pages only, and the stack and the arguments keep their
translations. -/
theorem stack_kept (dir : Nat) (c₀ c : Space) (hdir : IsDirectory dir) (hstart : Started dir c₀)
    (hreach : Reach (Step dir) (EventOk dir) c₀ c) :
    (∀ bytes frames, RequestOk dir c bytes → GrowthFresh dir c bytes frames) ∧
      ∀ c', Reach (Step dir) (EventOk dir) c c' → StackKept dir c c' := by
  have hinv := (run_kept hdir (inv_started hdir hstart) hreach).1
  exact ⟨fun bytes frames hok => growthFresh_request frames hdir hinv hok,
    fun c' hreach' => (run_kept hdir hinv hreach').2⟩

/-! ## 8. A stolen stack -/

/-- Frames of zeros. -/
def zeros : Bytes := fun _ => 0

/-- The machine of the empty directory with the first page of the heap. -/
def firstMachine : Machine := (mapNewPage emptyMachine 4096 0x400000).getD emptyMachine

/-- The start of its heap. -/
def firstSpace : Space := ⟨firstMachine, initMalloc zeros zeros, none⟩

theorem started_first : Started 4096 firstSpace := by
  obtain ⟨htables, hinUse⟩ := @tables_empty emptyMachine 4096 emptyMachine_empty (by decide)
  have hblocks : pageTables emptyMachine 4096 0x400000 = [0x3000, 0x4000] := by decide +kernel
  have hmapped : (mapNewPage emptyMachine 4096 0x400000).isSome = true := by decide +kernel
  obtain ⟨m, hm⟩ := Option.isSome_iff_exists.mp hmapped
  have hfirst : firstMachine = m := by
    unfold firstMachine
    rw [hm]
    rfl
  refine ⟨emptyMachine, zeros, zeros, ⟨htables, hinUse, by decide, fun w _ _ hne => ?_⟩,
    ⟨?_, ?_⟩, hm.trans (congrArg some hfirst.symm), rfl, rfl⟩
  · exact absurd (if_pos rfl) hne
  · rw [hblocks]
    intro block hblock
    have hne : 4096 ≠ block + 4096 := by
      rcases List.mem_cons.mp hblock with rfl | hblock
      · decide
      · rw [List.mem_singleton.mp hblock]
        decide
    exact ⟨fun _ _ => rfl, fun _ _ => rfl, hne⟩
  · rintro block - ⟨s, hs, -⟩
    exact absurd hs (by simp)

/-- What the first request of a page leaves: the pointer and the heap. -/
def loadedHeap : Nat × Heap :=
  (syscallMalloc firstSpace.heap 4096 zeros).getD (0, firstSpace.heap)

/-- The machine after a program of that size was started. -/
def loadedMachine : Option Machine :=
  (requestPages 4096 firstSpace.heap firstMachine 4096 zeros).bind fun m =>
    (mapNewPage m 4096 0x40200C).bind fun m => mapNewPage m 4096 0x40300C

theorem loaded_values : (syscallMalloc firstSpace.heap 4096 zeros).isSome = true ∧
    loadedHeap.1 = 0x40000C ∧ loadedMachine.isSome = true ∧
    heapEnd loadedHeap.2 = 0x402000 ∧ grownPages loadedHeap.2 8000 = 1 ∧
    loadedHeap.2.mallocListHead = 0x400000 ∧
    nodeSize loadedHeap.2.mem 0x400000 = 4096 := by
  decide +kernel

/-- **The heap grows by the page of the stack**: a program of a page fills the heap up to its end,
so that its stack is in the page by which the heap grows next. -/
theorem stack_stolen : ¬ ∀ (dir : Nat) (c₀ c : Space), IsDirectory dir → Started dir c₀ →
    Reach (Step dir) InBuffers c₀ c →
    (∀ bytes frames, GrowthFresh dir c bytes frames) ∧
      ∀ c', Reach (Step dir) InBuffers c c' → StackKept dir c c' := by
  intro hall
  obtain ⟨hloaded, hptr, hmachine, hend, hgrown, hhead, hsize⟩ := loaded_values
  obtain ⟨⟨ptr, h⟩, hret⟩ := Option.isSome_iff_exists.mp hloaded
  have hheap : loadedHeap = (ptr, h) := by
    unfold loadedHeap
    rw [hret]
    rfl
  rw [hheap] at hptr hend hgrown hhead hsize
  simp only [] at hptr hend hgrown hhead hsize
  subst hptr
  obtain ⟨m'', hm''⟩ := Option.isSome_iff_exists.mp hmachine
  obtain ⟨m, hm, hrest⟩ := Option.bind_eq_some_iff.mp hm''
  obtain ⟨m', hm', hargs⟩ := Option.bind_eq_some_iff.mp hrest
  have hstep : Step 4096 firstSpace (.create 4096 zeros h.mem m.memory)
      ⟨m'', h, some 0x40200C⟩ :=
    .create rfl hret hm (fun _ _ => rfl) (by decide) hm' hargs
  have hok : InBuffers firstSpace (.create 4096 zeros h.mem m.memory) := trivial
  have hfresh := (hall 4096 firstSpace _ ⟨by decide, by decide⟩ started_first
    (.tail .refl hok hstep)).1 8000 zeros
  have hready : readyHeap 4096 h m'' 8000 zeros = some (h, m'') :=
    readyHeap_started (by rw [hhead]; decide) (by rw [hhead, hsize]; decide)
  obtain ⟨hoff, -⟩ := hfresh h m'' hready 0 (by rw [hgrown]; decide) m'' rfl
  refine hoff ⟨0x40200C, rfl, Or.inl ?_⟩
  rw [hend]
  decide

/-! ## 9. A program whose stack stays -/

/-- The pointer and the heap after a program of 4084 bytes was loaded, which fills the page of the
heap to its last byte. -/
def filledHeap : Nat × Heap :=
  (syscallMalloc firstSpace.heap 4084 zeros).getD (0, firstSpace.heap)

/-- The machine with the pages of its stack and its arguments. -/
def filledMachine : Machine :=
  ((mapNewPage firstMachine 4096 0x402000).bind fun m => mapNewPage m 4096 0x403000).getD
    firstMachine

/-- That program after `create_process`: the stack lies one page behind the end of the heap. -/
def filledSpace : Space := ⟨filledMachine, filledHeap.2, some 0x402000⟩

/-- What `malloc(8000)` leaves in it. -/
def requestedHeap : Nat × Heap := (syscallMalloc filledSpace.heap 8000 zeros).getD (0, filledSpace.heap)

/-- The machine with the page by which the heap has grown. -/
def requestedMachine : Machine := (mapNewPage filledMachine 4096 0x401000).getD filledMachine

theorem filled_heaps : (syscallMalloc firstSpace.heap 4084 zeros).isSome = true ∧
    filledHeap.1 = 0x40000C ∧ grownPages firstSpace.heap 4084 = 0 ∧
    heapEnd firstSpace.heap = 0x401000 ∧ firstSpace.heap.mallocListHead ≠ 0 ∧
    nodeSize firstSpace.heap.mem firstSpace.heap.mallocListHead ≠ 0 ∧
    (syscallMalloc filledSpace.heap 8000 zeros).isSome = true ∧
    grownPages filledSpace.heap 8000 = 1 ∧ heapEnd filledSpace.heap = 0x401000 ∧
    filledSpace.heap.mallocListHead ≠ 0 ∧
    nodeSize filledSpace.heap.mem filledSpace.heap.mallocListHead ≠ 0 := by
  decide +kernel

theorem filled_machines : (mapNewPage firstMachine 4096 0x402000).isSome = true ∧
    pageTables firstMachine 4096 0x402000 = [] ∧
    ((mapNewPage firstMachine 4096 0x402000).all fun m =>
      (mapNewPage m 4096 0x403000).isSome && (pageTables m 4096 0x403000).isEmpty) = true ∧
    (mapNewPage filledMachine 4096 0x401000).isSome = true ∧
    pageTables filledMachine 4096 0x401000 = [] ∧
    bitAt filledMachine.manager.memoryMap 0x401 = false ∧
    getPhysicalAddress requestedMachine.memory 4096 0x402000 ≠ 0 := by
  decide +kernel

/-- A page can be mapped where no table has to be taken. -/
theorem pageOk_nil {m : Machine} {dir virt : Nat} (stack : Option Nat)
    (h : pageTables m dir virt = []) : PageOk m dir virt stack :=
  ⟨fun _ hblock => absurd (h ▸ hblock) List.not_mem_nil,
    fun _ hblock => absurd (h ▸ hblock) List.not_mem_nil⟩

theorem step_filled : Step 4096 firstSpace
    (.create 4084 zeros filledHeap.2.mem firstMachine.memory) filledSpace := by
  obtain ⟨hheap, hptr, hnone, -, hhead, hsize, -⟩ := filled_heaps
  obtain ⟨hstack, -, hboth, -⟩ := filled_machines
  obtain ⟨r, hr⟩ := Option.isSome_iff_exists.mp hheap
  have hret : syscallMalloc firstSpace.heap 4084 zeros = some (0x40000C, filledHeap.2) := by
    rw [← hptr]
    unfold filledHeap
    rw [hr]
    rfl
  have hpages : requestPages 4096 firstSpace.heap firstSpace.machine 4084 zeros =
      some firstMachine := by
    unfold requestPages
    rw [readyHeap_started hhead hsize, Option.bind_some, hnone]
    rfl
  obtain ⟨m, hm⟩ := Option.isSome_iff_exists.mp hstack
  rw [hm] at hboth
  obtain ⟨m', hm'⟩ := Option.isSome_iff_exists.mp (Bool.and_eq_true_iff.mp hboth).1
  have hfilled : filledMachine = m' := by
    unfold filledMachine
    rw [hm, Option.bind_some, hm']
    rfl
  unfold filledSpace
  rw [hfilled]
  generalize firstMachine = first at hpages hm ⊢
  exact .create rfl hret hpages (fun _ _ => rfl) (by decide) hm hm'

/-- The request that loads the program does not grow the heap. -/
theorem eventOk_filled : EventOk 4096 firstSpace
    (.create 4084 zeros filledHeap.2.mem firstMachine.memory) := by
  obtain ⟨hheap, hptr, hnone, hend, hhead, hsize, -⟩ := filled_heaps
  obtain ⟨-, htables, hboth, -⟩ := filled_machines
  refine ⟨⟨hhead, hsize, ?_, ?_, fun i hi => ?_⟩, fun ptr h m m' hret hpages hm' => ?_⟩
  · rw [hend, hnone]
    decide
  · rintro page ⟨s, hs, -⟩
    exact absurd hs (by simp [firstSpace])
  · exact absurd (hnone ▸ hi) (Nat.not_lt_zero i)
  · have hfilled : filledHeap = (ptr, h) := by
      unfold filledHeap
      rw [hret]
      rfl
    obtain rfl : ptr = 0x40000C := by rw [← hptr, hfilled]
    unfold requestPages at hpages
    rw [readyHeap_started hhead hsize, Option.bind_some, hnone] at hpages
    have hfirst : firstMachine = m := Option.some.inj hpages
    have hplace : u32 (0x40000C + 4084 + pageSize) = 0x402000 := by decide
    have hnext : u32 (0x402000 + pageSize) = 0x403000 := by decide
    rw [hplace, hfirst] at hm' ⊢
    rw [hfirst] at htables hboth
    rw [hnext]
    rw [show mapNewPage m 4096 0x402000 = some m' from hm'] at hboth
    exact ⟨pageOk_nil none htables,
      pageOk_nil none (List.isEmpty_iff.mp (Bool.and_eq_true_iff.mp hboth).2)⟩

/-- The page by which the heap grows for 8000 bytes lies in front of the stack. -/
theorem requestOk_filled : RequestOk 4096 filledSpace 8000 := by
  obtain ⟨-, -, -, -, -, -, -, hgrown, hend, hhead, hsize⟩ := filled_heaps
  obtain ⟨-, -, -, -, htables, hclear, -⟩ := filled_machines
  refine ⟨hhead, hsize, by rw [hend, hgrown]; decide, ?_, fun i hi mi hmi => ?_⟩
  · rw [hend, hgrown]
    rintro page ⟨s, hs, hpage⟩
    obtain rfl := Option.some.inj hs
    rcases hpage with rfl | rfl
    · exact Or.inr (by decide)
    · exact Or.inr (by decide)
  · rw [hgrown] at hi
    obtain rfl := Nat.lt_one_iff.mp hi
    obtain rfl := Option.some.inj hmi
    rw [hend]
    refine ⟨pageOk_nil _ htables, ?_⟩
    -- The block of that address is free, and those of tables are in use.
    rintro ⟨v, hv, hentry, hframe⟩
    have hdir : IsDirectory 4096 := ⟨by decide, by decide⟩
    have hrun := run_kept hdir (inv_started hdir started_first)
      (.tail .refl eventOk_filled step_filled)
    have hinUse := hrun.1.window.inUse.table v hv hentry
    rw [hframe] at hinUse
    exact absurd (hinUse.symm.trans hclear) (by decide)

theorem step_requested : Step 4096 filledSpace (.malloc 8000 zeros)
    ⟨requestedMachine, requestedHeap.2, some 0x402000⟩ := by
  obtain ⟨-, -, -, -, -, -, hheap, hgrown, hend, hhead, hsize⟩ := filled_heaps
  obtain ⟨-, -, -, hmap, -⟩ := filled_machines
  obtain ⟨r, hr⟩ := Option.isSome_iff_exists.mp hheap
  have hret : syscallMalloc filledSpace.heap 8000 zeros = some (requestedHeap.1, requestedHeap.2) := by
    unfold requestedHeap
    rw [hr]
    rfl
  refine .malloc hret ?_
  obtain ⟨m, hm⟩ := Option.isSome_iff_exists.mp hmap
  unfold requestPages
  rw [readyHeap_started hhead hsize, Option.bind_some, hgrown, hend]
  have hmachine : requestedMachine = m := by
    unfold requestedMachine
    rw [hm]
    rfl
  rw [hmachine]
  exact Option.bind_eq_some_iff.mpr ⟨m, hm, rfl⟩

/-- The theorem for that program, which asks for 8000 bytes: the heap grows by a fresh page, and
the stack behind it stays mapped where it was. -/
theorem stack_kept_filled : GrowthFresh 4096 filledSpace 8000 zeros ∧
    grownPages filledSpace.heap 8000 = 1 ∧
    StackKept 4096 filledSpace ⟨requestedMachine, requestedHeap.2, some 0x402000⟩ ∧
    getPhysicalAddress requestedMachine.memory 4096 0x402000 ≠ 0 := by
  obtain ⟨hfresh, hkept⟩ := stack_kept 4096 firstSpace filledSpace ⟨by decide, by decide⟩
    started_first (.tail .refl eventOk_filled step_filled)
  obtain ⟨-, -, -, -, -, -, -, hgrown, -⟩ := filled_heaps
  obtain ⟨-, -, -, -, -, -, hmapped⟩ := filled_machines
  have hok : EventOk 4096 filledSpace (.malloc 8000 zeros) := requestOk_filled
  exact ⟨hfresh 8000 zeros requestOk_filled, hgrown, hkept _ (.tail .refl hok step_requested), hmapped⟩

end AmateurOs.Exec
