/-
# Leaving a program

A model of the part of `syscall_exit` of `include/interrupts/syscalls.h` that gives memory back, of
what `syscall_close` does with the pages of a file buffer, and of the start of `shell` in
`kernel.c`.

`syscall_exit` looks a page up, calls `unmap_address` and frees the frame it found.  But
`unmap_address` drops the table of the whole region of 4 MiB, so that the next page of the region
is no longer found: of the stack, the arguments and the program in one region only the first page
is given back (`changes_releasePages`).  The pages of the heap are unmapped and never freed.
-/
import AmateurOs.Exec.Stack
import AmateurOs.Memory.Balance

namespace AmateurOs.Exec

open AmateurOs.Lib
open AmateurOs.Malloc (Heap)
open AmateurOs.Memory

/-! ## 1. The pages of a file buffer -/

/-- `get_page`: the address of the entry of the page. -/
def getPage (memory : Bytes) (dir address : Nat) : Nat :=
  entryAddress (directoryEntry memory dir address) address

/-- `free_page`: the frame is freed if there is one, and `PTE_PRESENT` cleared. -/
def freePage (m : Machine) (page : Nat) : Machine :=
  let address := frameOf (le32 m.memory page)
  { memory := put32 m.memory page (le32 m.memory page &&& 0xFFFFFFFE)
    manager := if address ≠ 0 then freeBlocks m.manager address 1 else m.manager }

/-- `unmap_page`: `SET_FRAME` to 0, which keeps bit 31, and `PTE_PRESENT` cleared. -/
def unmapPage (m : Machine) (dir virt : Nat) : Machine :=
  let page := getPage m.memory dir virt
  { m with memory := put32 m.memory page (le32 m.memory page &&& 0x80000FFF &&& 0xFFFFFFFE) }

/-- The loop of `syscall_close` over the pages of the file. -/
def closePages (dir : Nat) : Nat → Machine → Nat → Machine
  | 0, m, _ => m
  | n + 1, m, fileAddress =>
    let m := freePage m (getPage m.memory dir fileAddress)
    closePages dir n (unmapPage m dir fileAddress) (u32 (fileAddress + pageSize))

/-- The loop of `syscall_open` over the pages of the file: the one of the heap. -/
def openPages (dir n : Nat) (m : Machine) (virt : Nat) : Option Machine := mapHeapPages dir n m virt

/-! ## 2. `syscall_exit` -/

/-- A page is looked up and, if it is mapped, unmapped and its frame freed. -/
def releasePage (dir : Nat) (m : Machine) (virt : Nat) : Machine :=
  let phys := getPhysicalAddress m.memory dir virt
  if phys ≠ 0 then
    let m := unmapAddress m dir virt
    { m with manager := freeBlocks m.manager phys 1 }
  else m

/-- The pages that are released: the stack, the arguments and the program. -/
def threadPages (thread : Thread) : List Nat :=
  thread.stack :: u32 (thread.stack + pageSize) ::
    (List.range (thread.pgmSize / pageSize)).map fun page => u32 (thread.pgmBuf + page * pageSize)

/-- The loop that unmaps the heap. -/
def unmapHeap (dir : Nat) (h : Heap) (m : Machine) : Machine :=
  (List.range h.totalMallocPages).foldl
    (fun m p => unmapAddress m dir (u32 (h.mallocStart + p * pageSize))) m

/-- What `syscall_exit` releases after the standard files were closed. -/
def exitPages (dir : Nat) (thread : Thread) (h : Heap) (m : Machine) : Machine :=
  unmapHeap dir h ((threadPages thread).foldl (releasePage dir) m)

/-! ## 3. The shell -/

/-- The address of the first file buffer. -/
def fileStart : Nat := 0x40000000

/-- `init_malloc` maps a page for the heap, and the standard files are opened, whose buffers lie
one behind the other. -/
def startShell (dir stdPages : Nat) (m : Machine) : Option Machine :=
  (mapNewPage m dir 0x400000).bind fun m => openPages dir stdPages m fileStart

/-! ## 4. The balance of pages -/

/-- Every page of a loop gets a frame. -/
def FramesFor (dir n : Nat) (m : Machine) (virt : Nat) : Prop :=
  ∀ i < n, ∀ mi, mapHeapPages dir i m virt = some mi → (allocateBlocks mi.manager 1).1 ≠ 0

/-- A new page takes its frame. -/
theorem changes_mapNewPage {m m' : Machine} {dir virt : Nat}
    (hmax : m.manager.maxBlocks ≤ blockLimit) (hframe : (allocateBlocks m.manager 1).1 ≠ 0)
    (h : mapNewPage m dir virt = some m') : Changes 1 0 m m' := by
  obtain ⟨r, hr, rfl⟩ := Option.map_eq_some_iff.mp h
  have hfirst := changes_allocateBlocks_one hmax hframe
  exact hfirst.trans (changes_mapAddress mapFuel _ _ virt r (hfirst.maxBlocks.trans_le hmax) hr)

/-- **A loop takes a frame for every page.** -/
theorem changes_mapHeapPages {dir : Nat} : ∀ (n : Nat) (m m' : Machine) (virt : Nat),
    m.manager.maxBlocks ≤ blockLimit → FramesFor dir n m virt →
    mapHeapPages dir n m virt = some m' → Changes n 0 m m' := by
  intro n
  induction n with
  | zero =>
    intro m m' virt _ _ h
    obtain rfl := Option.some.inj h
    exact Changes.refl m
  | succ n ih =>
    intro m m' virt hmax hframes h
    obtain ⟨m₁, hfirst, hrest⟩ := Option.bind_eq_some_iff.mp h
    have hone := changes_mapNewPage hmax (hframes 0 (Nat.succ_pos n) m rfl) hfirst
    have hmany := ih m₁ m' _ (hone.maxBlocks.trans_le hmax) (fun i hi mi hmi =>
      hframes (i + 1) (Nat.succ_lt_succ hi) mi (Option.bind_eq_some_iff.mpr ⟨m₁, hfirst, hmi⟩)) hrest
    exact (hone.trans hmany).weaken (Nat.add_comm n 1).le (Nat.le_refl _)

theorem changes_freePage (m : Machine) (page : Nat) : Changes 0 1 m (freePage m page) := by
  unfold freePage
  simp only []
  by_cases hnull : frameOf (le32 m.memory page) = 0
  · rw [if_neg (not_not_intro hnull)]
    exact ((Changes.refl m).weaken (Nat.le_refl _) (Nat.zero_le 1)).of_manager rfl rfl
  · rw [if_pos hnull]
    exact (changes_freeBlocks m _).of_manager rfl rfl

/-- Closing a file gives back at most its pages. -/
theorem changes_closePages {dir : Nat} : ∀ (n : Nat) (m : Machine) (fileAddress : Nat),
    Changes 0 n m (closePages dir n m fileAddress) := by
  intro n
  induction n with
  | zero => exact fun m _ => Changes.refl m
  | succ n ih =>
    intro m fileAddress
    have hfree : Changes 0 1 m (unmapPage (freePage m (getPage m.memory dir fileAddress)) dir
        fileAddress) := (changes_freePage m _).of_manager rfl rfl
    have hrest := ih (unmapPage (freePage m (getPage m.memory dir fileAddress)) dir fileAddress)
      (u32 (fileAddress + pageSize))
    exact (hfree.trans hrest).weaken (Nat.le_refl _) (Nat.add_comm 1 n).le

/-! ## 5. The balance of an exit -/

/-- Without a table nothing is released. -/
theorem releasePage_none {m : Machine} {dir virt : Nat}
    (h : directoryEntry m.memory dir virt = 0) : releasePage dir m virt = m := by
  have hphys : getPhysicalAddress m.memory dir virt = 0 := if_pos h
  unfold releasePage
  simp only [hphys]
  exact if_neg (not_not_intro rfl)

/-- A page that is released takes the table of its region with it. -/
theorem releasePage_some {m : Machine} {dir virt w : Nat} (hregion : w / 4194304 = virt / 4194304)
    (hphys : getPhysicalAddress m.memory dir virt ≠ 0) :
    directoryEntry (releasePage dir m virt).memory dir w = 0 ∧
      Changes 0 2 m (releasePage dir m virt) := by
  unfold releasePage
  simp only [if_pos hphys]
  exact ⟨directoryEntry_unmapAddress hregion,
    (changes_unmapAddress m dir virt).trans (changes_freeBlocks _ _)⟩

theorem releasePages_none {m : Machine} {dir virt : Nat} (h : directoryEntry m.memory dir virt = 0) :
    ∀ pages : List Nat, (∀ w ∈ pages, w / 4194304 = virt / 4194304) →
      pages.foldl (releasePage dir) m = m := by
  intro pages
  induction pages with
  | nil => exact fun _ => rfl
  | cons w pages ih =>
    intro hpages
    have hw := @directoryEntry_region m.memory dir _ _ (hpages w List.mem_cons_self)
    rw [List.foldl_cons, releasePage_none (hw.trans h)]
    exact ih fun w hw => hpages w (List.mem_cons_of_mem _ hw)

/-- **Of the pages of one region one is released**, with the table: the others are not found
after it. -/
theorem changes_releasePages {dir region : Nat} : ∀ (pages : List Nat) (m : Machine),
    (∀ virt ∈ pages, virt / 4194304 = region) → Changes 0 2 m (pages.foldl (releasePage dir) m) := by
  intro pages
  induction pages with
  | nil => exact fun m _ => (Changes.refl m).weaken (Nat.le_refl _) (Nat.zero_le _)
  | cons virt pages ih =>
    intro m hregion
    have hrest := fun w hw => hregion w (List.mem_cons_of_mem virt hw)
    rw [List.foldl_cons]
    by_cases hphys : getPhysicalAddress m.memory dir virt = 0
    · have hsame : releasePage dir m virt = m := if_neg (not_not_intro hphys)
      rw [hsame]
      exact ih m hrest
    · obtain ⟨hgone, hchanges⟩ := @releasePage_some m dir virt virt rfl hphys
      have hsame : ∀ w ∈ pages, w / 4194304 = virt / 4194304 := fun w hw =>
        (hrest w hw).trans (hregion virt List.mem_cons_self).symm
      rw [releasePages_none hgone pages hsame]
      exact hchanges

/-- **Unmapping the heap gives back the tables**: at most one for every 1024 pages. -/
theorem changes_unmapHeap {dir : Nat} {h : Heap} (hstart : h.mallocStart = 0x400000)
    (m : Machine) : Changes 0 ((h.totalMallocPages + 1023) / 1024) m (unmapHeap dir h m) := by
  have hupto : ∀ n,
      Changes 0 ((n + 1023) / 1024) m ((List.range n).foldl
        (fun m p => unmapAddress m dir (u32 (h.mallocStart + p * pageSize))) m) ∧
      (n % 1024 ≠ 0 → directoryEntry ((List.range n).foldl
        (fun m p => unmapAddress m dir (u32 (h.mallocStart + p * pageSize))) m).memory dir
          (u32 (h.mallocStart + n * pageSize)) = 0) := by
    intro n
    induction n with
    | zero => exact ⟨Changes.refl m, fun hn => absurd rfl hn⟩
    | succ n ih =>
      obtain ⟨hchanges, hgone⟩ := ih
      rw [List.range_succ, List.foldl_append, List.foldl_cons, List.foldl_nil]
      generalize (List.range n).foldl
        (fun m p => unmapAddress m dir (u32 (h.mallocStart + p * pageSize))) m = mn at *
      refine ⟨?_, fun hn => directoryEntry_unmapAddress ?_⟩
      · by_cases hn : n % 1024 = 0
        · exact (hchanges.trans (changes_unmapAddress mn dir _)).weaken (Nat.le_refl _) (by omega)
        · -- The region of the page has lost its table with an earlier page.
          rw [unmapAddress_none (hgone hn)]
          exact hchanges.weaken (Nat.le_refl _) (by omega)
      · rw [hstart]
        unfold u32 pageSize
        omega
  exact (hupto h.totalMallocPages).1

end AmateurOs.Exec
