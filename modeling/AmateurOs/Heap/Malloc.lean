/-
# The heap: `malloc_init`, `malloc_next_block`, `merge_free_blocks`, `malloc_free`

A model of `include/memory/malloc.h` and of the two system calls of
`include/interrupts/syscalls.h` that use it.  The list of `malloc_block_t` headers lives in the
memory it describes, so the model keeps it there: a `Heap` holds the bytes of the address space
and the few static variables of the file, and a node is the address of its header.

* A header is 12 bytes: `size` at 0, the four-byte `bool` `free` at 4, `next` at 8.
* `allocate_blocks` is taken to succeed.  What a newly mapped frame holds is arbitrary: the
  argument `frames` gives the bytes that the frames mapped by this call show at their virtual
  addresses.
* A `while` that the C code would never leave has no result (`none`).
-/
import AmateurOs.Lib.Bytes
import AmateurOs.Lib.Run

namespace AmateurOs.Malloc

open AmateurOs.Lib

/-! ## 1. Headers and static variables -/

/-- `PAGE_SIZE`. -/
def pageSize : Nat := 4096

/-- `sizeof(malloc_block_t)`. -/
def headerSize : Nat := 12

/-- The number of addresses: no list of headers has more nodes. -/
def addressSpace : Nat := 4294967296

/-- The memory and the static variables of `malloc.h`. -/
structure Heap where
  /-- The bytes at every virtual address. -/
  mem : Bytes
  mallocListHead : Nat
  mallocVirtAddress : Nat
  totalMallocPages : Nat
  mallocStart : Nat

/-- `node->size`. -/
def nodeSize (m : Bytes) (node : Nat) : Nat := le32 m node

/-- `node->free`. -/
def nodeFree (m : Bytes) (node : Nat) : Nat := le32 m (node + 4)

/-- `node->next`. -/
def nodeNext (m : Bytes) (node : Nat) : Nat := le32 m (node + 8)

/-- `node->size = v`. -/
def setSize (m : Bytes) (node v : Nat) : Bytes := put32 m node v

/-- `node->free = v`. -/
def setFree (m : Bytes) (node v : Nat) : Bytes := put32 m (node + 4) v

/-- `node->next = v`. -/
def setNext (m : Bytes) (node v : Nat) : Bytes := put32 m (node + 8) v

/-- `allocate_blocks(1)` and `map_address` at `virt`: the page shows what the frame holds. -/
def mapPage (m frames : Bytes) (virt : Nat) : Bytes := blit m virt pageSize (slice frames virt)

/-- `n` pages mapped one after the other from `virt` on. -/
def mapPages (frames : Bytes) : Nat → Bytes → Nat → Bytes
  | 0, m, _ => m
  | n + 1, m, virt => mapPages frames n (mapPage m frames virt) (u32 (virt + pageSize))

/-- Mapping pages leaves what every other address shows. -/
theorem mapPages_out {frames : Bytes} {p : Nat} : ∀ (n : Nat) {m : Bytes} {virt : Nat},
    virt + n * pageSize ≤ addressSpace → p < virt ∨ virt + n * pageSize ≤ p →
    mapPages frames n m virt p = m p := by
  intro n
  induction n with
  | zero => exact fun _ _ => rfl
  | succ n ih =>
    intro m virt hfits hp
    unfold pageSize addressSpace at *
    have hpage : mapPage m frames virt p = m p := blit_out (by unfold pageSize; omega)
    unfold mapPages
    rcases Nat.eq_zero_or_pos n with rfl | hn
    · exact hpage
    · unfold pageSize
      rw [u32_eq (by omega), ih (by omega) (by omega), hpage]

/-- The mapped pages show what their frames hold. -/
theorem mapPages_in {frames : Bytes} {p : Nat} : ∀ (n : Nat) {m : Bytes} {virt : Nat},
    virt + n * pageSize ≤ addressSpace → virt ≤ p → p < virt + n * pageSize →
    mapPages frames n m virt p = frames p := by
  intro n
  induction n with
  | zero =>
    intro m virt _ h1 h2
    omega
  | succ n ih =>
    intro m virt hfits h1 h2
    have hfits' : virt + (n * pageSize + pageSize) ≤ addressSpace := by
      rwa [Nat.succ_mul] at hfits
    unfold mapPages
    by_cases hp : p < virt + pageSize
    · have hpage : mapPage m frames virt p = frames p := by
        unfold mapPage
        rw [blit_in h1 hp, slice_apply, Nat.add_sub_cancel' h1]
      rcases Nat.eq_zero_or_pos n with rfl | hn
      · exact hpage
      · have hsmall : virt + pageSize < 4294967296 := by
          unfold pageSize addressSpace at *
          omega
        rw [u32_eq hsmall, mapPages_out n (by omega) (Or.inl hp), hpage]
    · have hn : 0 < n := by
        rw [Nat.succ_mul] at h2
        rcases Nat.eq_zero_or_pos n with rfl | hn
        · omega
        · exact hn
      have hsmall : virt + pageSize < 4294967296 := by
        unfold pageSize addressSpace at *
        omega
      rw [Nat.succ_mul] at h2
      rw [u32_eq hsmall]
      exact ih (by omega) (by omega) (by omega)

/-! ## 2. The functions of `malloc.h` -/

/-- `malloc_init`. -/
def mallocInit (h : Heap) (bytes : Nat) (frames : Bytes) : Heap :=
  let pages := bytes / pageSize + (if bytes % pageSize > 0 then 1 else 0)
  let head := h.mallocVirtAddress
  let m := mapPages frames pages h.mem h.mallocVirtAddress
  let m :=
    if head ≠ 0 then
      setNext (setFree (setSize m head (sub32 (u32 (pages * pageSize)) headerSize)) head 1) head 0
    else m
  { h with mem := m, mallocListHead := head, totalMallocPages := pages }

/-- `malloc_split`. -/
def mallocSplit (m : Bytes) (node size : Nat) : Bytes :=
  let newNode := u32 (node + size + headerSize)
  let m := setSize m newNode (sub32 (sub32 (nodeSize m node) size) headerSize)
  let m := setFree m newNode 1
  let m := setNext m newNode (nodeNext m node)
  let m := setSize m node size
  let m := setFree m node 0
  setNext m node newNode

/-- The first-fit scan of `malloc_next_block`: the node where it stops. -/
def scan (m : Bytes) (size head : Nat) : Option Nat :=
  loop (fun cur => (decide (nodeSize m cur < size) || nodeFree m cur == 0) && nodeNext m cur != 0)
    (nodeNext m) addressSpace head

/-- The page count of the growing branch; `num_pages` is a `uint8_t`. -/
def numPages (curSize size : Nat) : Option Nat :=
  loop (fun n => decide (u32 (curSize + n * pageSize) < u32 (size + headerSize)))
    (fun n => u8 (n + 1)) 256 1

/-- The growing loop of `malloc_next_block`: map a page at `virt`, add it to `cur->size`. -/
def growNode (frames : Bytes) (cur : Nat) : Nat → Bytes → Nat → Bytes
  | 0, m, _ => m
  | n + 1, m, virt =>
    let m := mapPage m frames virt
    growNode frames cur n (setSize m cur (u32 (nodeSize m cur + pageSize))) (u32 (virt + pageSize))

/-- `malloc_next_block`: the pointer returned and the heap left. -/
def mallocNextBlock (h : Heap) (size : Nat) (frames : Bytes) : Option (Nat × Heap) :=
  if size = 0 then some (0, h)
  else
    let h := if nodeSize h.mem h.mallocListHead = 0 then mallocInit h size frames else h
    match scan h.mem size h.mallocListHead with
    | none => none
    | some cur =>
      if size = nodeSize h.mem cur then
        some (u32 (cur + headerSize), { h with mem := setFree h.mem cur 0 })
      else if nodeSize h.mem cur > u32 (size + headerSize) then
        some (u32 (cur + headerSize), { h with mem := mallocSplit h.mem cur size })
      else
        match numPages (nodeSize h.mem cur) size with
        | none => none
        | some n =>
          let virt := u32 (h.mallocVirtAddress + u32 (h.totalMallocPages * pageSize))
          let m := growNode frames cur n h.mem virt
          some (u32 (cur + headerSize),
            { h with mem := mallocSplit m cur size, totalMallocPages := u32 (h.totalMallocPages + n) })

/-- The body of the loop of `merge_free_blocks`, on the memory and `cur`. -/
def mergeTurn (s : Bytes × Nat) : Bytes × Nat :=
  let m := s.1
  let cur := s.2
  let next := nodeNext m cur
  let m :=
    if nodeFree m cur ≠ 0 ∧ nodeFree m next ≠ 0 then
      let m := setSize m cur (u32 (nodeSize m cur + u32 (nodeSize m next + headerSize)))
      setNext m cur (nodeNext m next)
    else m
  (m, nodeNext m cur)

/-- `merge_free_blocks`. -/
def mergeFreeBlocks (m : Bytes) (head : Nat) : Option Bytes :=
  (loop (fun s : Bytes × Nat => s.2 != 0 && nodeNext s.1 s.2 != 0) mergeTurn addressSpace
    (m, head)).map Prod.fst

/-- `malloc_free`: the scan stops at the node of `ptr`, or at the last node, which it does not
look at. -/
def mallocFree (h : Heap) (ptr : Nat) : Option Heap :=
  match loop (fun cur => nodeNext h.mem cur != 0 && u32 (cur + headerSize) != ptr)
      (nodeNext h.mem) addressSpace h.mallocListHead with
  | none => none
  | some cur =>
    if nodeNext h.mem cur ≠ 0 then
      (mergeFreeBlocks (setFree h.mem cur 1) h.mallocListHead).map ({ h with mem := · })
    else some h

/-! ## 3. The system calls and the initial heap -/

/-- `syscall_malloc`: the pointer handed to the program and the heap left. -/
def syscallMalloc (h : Heap) (bytes : Nat) (frames : Bytes) : Option (Nat × Heap) :=
  let h := if h.mallocListHead = 0 then mallocInit h bytes frames else h
  match mallocNextBlock h bytes frames with
  | none => none
  | some (ptr, h) =>
    (mergeFreeBlocks h.mem h.mallocListHead).map fun m => (ptr, { h with mem := m })

/-- `syscall_free`. -/
def syscallFree (h : Heap) (ptr : Nat) : Option Heap := mallocFree h ptr

/-- `init_malloc` of `kernel.c`: one mapped page at 4 MiB, one free node. -/
def initMalloc (mem frames : Bytes) : Heap :=
  let start := 0x400000
  let m := mapPage mem frames start
  { mem := setNext (setFree (setSize m start (pageSize - headerSize)) start 1) start 0
    mallocListHead := start
    mallocVirtAddress := start
    totalMallocPages := 1
    mallocStart := start }

end AmateurOs.Malloc
