/-
# From prompt to prompt

The life of a program: `create_process` opens, loads and closes the file and maps the stack and the
arguments, the program calls `malloc` and `free` and stores what it likes, `syscall_exit` gives
memory back and `shell` starts anew with `init_malloc`.

Every frame but that of a table is taken by one of the loops of `Exec.Exit`, so the number of set
bits can be followed without looking at the tables (`Changes`).  A program buffer in a fresh heap
ends in the region where the heap begins, with the stack and the arguments: `syscall_exit` gives
back one page of that region and, with the heap, one table for every region.  The pages of the heap
stay, so that every run leaks (`run_leaks`) and the balance is kept by no run at all
(`balance_kept_iff`).
-/
import AmateurOs.Exec.Exit
import AmateurOs.Heap.Tiling

namespace AmateurOs.Exec

open AmateurOs.Lib
open AmateurOs.Malloc (Heap nodeSize nodeNext scan numPages mallocNextBlock syscallMalloc initMalloc
  headerSize)
open AmateurOs.Memory
open AmateurOs.Syscalls (System)

/-! ## 1. A run -/

/-- The heap of the system: the kernel's memory and the statics. -/
def heapOf (s : System) : Heap := { s.heap with mem := s.kernel.mem }

/-- The heap that `init_malloc` leaves: one page, which is one free node. -/
structure FreshHeap (h : Heap) : Prop where
  head : h.mallocListHead = 0x400000
  virt : h.mallocVirtAddress = 0x400000
  start : h.mallocStart = 0x400000
  total : h.totalMallocPages = 1
  size : nodeSize h.mem 0x400000 = 4084
  next : nodeNext h.mem 0x400000 = 0

/-- The address of the next file buffer, behind those of the standard files. -/
def nextFile (stdPages : Nat) : Nat := u32 (fileStart + stdPages * 4096)

/-- What a program does that opens no files. -/
def HeapCalls (_ : Space) : Event → Prop
  | .malloc _ _ | .free _ | .store _ _ => True
  | .create _ _ _ _ | .file _ => False

/-- A run of a program whose file has that number of pages, from one prompt to the next, with what
lies between. -/
structure ProgramRun (dir stdPages pages : Nat) (m m' : Machine) where
  /-- After `open`. -/
  opened : Machine
  open_eq : openPages dir pages m (nextFile stdPages) = some opened
  /-- The system, and the address of the buffer, when the file is loaded. -/
  system : System
  ehdr : Nat
  frames : Bytes
  fresh : FreshHeap (heapOf system)
  wellFormed : WellFormedElf system.kernel.mem ehdr
  loaded : Loaded
  load_eq : loadElfFile frames system ehdr = some loaded
  grown : Machine
  grown_eq : requestPages dir (heapOf system) opened (bufferSize system.kernel.mem ehdr) frames
    = some grown
  /-- What frames hold when the program was copied. -/
  memory : Bytes
  copied : SameTables dir grown.memory memory
  stacked : Machine
  stack_eq : mapNewPage { grown with memory := memory } dir (stackAddress loaded) = some stacked
  ready : Machine
  args_eq : mapNewPage stacked dir (argsAddress loaded) = some ready
  /-- When the program calls `exit`, and after the standard files were closed. -/
  left : Space
  execution : Reach (Step dir) HeapCalls ⟨closePages dir pages ready (nextFile stdPages),
    heapOf loaded.system, some (stackAddress loaded)⟩ left
  shell_eq : startShell dir stdPages (exitPages dir (startedThread loaded) left.heap
    (closePages dir stdPages left.machine fileStart)) = some m'

namespace ProgramRun

variable {dir stdPages pages : Nat} {m m' : Machine}

/-- When the program starts: the file is closed. -/
def started (r : ProgramRun dir stdPages pages m m') : Space :=
  ⟨closePages dir pages r.ready (nextFile stdPages), heapOf r.loaded.system,
    some (stackAddress r.loaded)⟩

/-- The machine when the standard files were closed. -/
def closed (r : ProgramRun dir stdPages pages m m') : Machine :=
  closePages dir stdPages r.left.machine fileStart

/-- The machine when `syscall_exit` calls `shell`. -/
def exited (r : ProgramRun dir stdPages pages m m') : Machine :=
  exitPages dir (startedThread r.loaded) r.left.heap r.closed

end ProgramRun

/-! ## 2. The property -/

/-- A block is the frame of a table or of a page that is present. -/
def Referenced (memory : Bytes) (dir block : Nat) : Prop :=
  (∃ v < 4294967296, directoryEntry memory dir v ≠ 0 ∧
    frameOf (directoryEntry memory dir v) / 4096 = block) ∨
  ∃ w < 4294967296, getPhysicalAddress memory dir w % 2 = 1 ∧
    getPhysicalAddress memory dir w / 4096 = block

/-- A block is given back and still referenced. -/
def OverFrees (dir : Nat) (m m' : Machine) : Prop :=
  ∃ block, bitAt m.manager.memoryMap block = true ∧ bitAt m'.manager.memoryMap block = false ∧
    Referenced m'.memory dir block

/-- **The balance of `n` runs**: at every prompt as many blocks are in use as at the first, and no
block was given back that is still referenced. -/
structure Balanced (dir stdPages pages n : Nat) (m : Nat → Machine)
    (runs : ∀ i < n, ProgramRun dir stdPages pages (m i) (m (i + 1))) : Prop where
  same : ∀ i ≤ n, setBits (m i) = setBits (m 0)
  closing : ∀ i (hi : i < n), ¬ OverFrees dir (runs i hi).ready (runs i hi).started.machine ∧
    ¬ OverFrees dir (runs i hi).left.machine (runs i hi).closed
  leaving : ∀ i (hi : i < n), ¬ OverFrees dir (runs i hi).closed (runs i hi).exited

/-! ## 3. Loading into a fresh heap -/

/-- What a program is given by a fresh heap. -/
structure LoadedFresh (h h' : Heap) (size ptr : Nat) : Prop where
  ptr : ptr = 0x40000C
  grown : HeapGrown h h' (grownPages h size)
  pages : 0 < grownPages h size ∧ grownPages h size < 256
  fits : size + 12 ≤ 4084 + grownPages h size * 4096

/-- The count of pages of the growing branch. -/
theorem numPages_bounds {curSize size n : Nat} (hsmall : curSize < size + 12)
    (hsize : size + 12 < 4294967296) (hcur : curSize ≤ 4096)
    (h : numPages curSize size = some n) : 0 < n ∧ n < 256 ∧ size + 12 ≤ curSize + n * 4096 := by
  obtain ⟨hlt, hstop⟩ := @loop_inv _ _ _ (fun n => n < 256)
    (fun n _ _ => Nat.mod_lt _ (by decide)) _ _ _ (by decide) h
  have hle := Nat.not_lt.mp (of_decide_eq_false hstop)
  unfold headerSize Malloc.pageSize at hle
  rw [u32_eq (by omega), u32_eq (by omega)] at hle
  omega

theorem loadedFresh {h h' : Heap} {size ptr : Nat} {frames : Bytes} (hfresh : FreshHeap h)
    (hpos : 4096 ≤ size) (hsize : size + 12 < 4294967296)
    (hret : syscallMalloc h size frames = some (ptr, h')) : LoadedFresh h h' size ptr := by
  obtain ⟨hhead, hvirt, hstart, htotal, hnode, hnext⟩ := hfresh
  have hhead0 : h.mallocListHead ≠ 0 := by rw [hhead]; decide
  have hnode0 : nodeSize h.mem h.mallocListHead ≠ 0 := by rw [hhead, hnode]; decide
  have hgrown := heapGrown_malloc hhead0 hnode0 (by rw [htotal]; decide) hret
  have hscan : scan h.mem size h.mallocListHead = some 0x400000 := by
    rw [hhead]
    refine loop_done ?_
    rw [hnext]
    simp
  have hne : ¬ size = nodeSize h.mem 0x400000 := by rw [hnode]; omega
  have hlarge : ¬ nodeSize h.mem 0x400000 > u32 (size + headerSize) := by
    unfold headerSize
    rw [hnode, u32_eq hsize]
    omega
  have hzero : ¬ size = 0 := by omega
  unfold syscallMalloc mallocNextBlock at hret
  simp only [if_neg hhead0, if_neg hnode0, if_neg hzero, hscan, if_neg hne, if_neg hlarge] at hret
  have hpages : grownPages h size = (numPages (nodeSize h.mem 0x400000) size).getD 0 := by
    unfold grownPages
    simp only [if_neg hzero, hscan, if_neg hne, if_neg hlarge]
  rw [hnode] at hret hpages
  cases hnum : numPages 4084 size with
  | none =>
    rw [hnum] at hret
    exact absurd hret (by simp)
  | some n =>
    rw [hnum] at hret hpages
    obtain ⟨hpos', hlt, hfits⟩ := numPages_bounds (by omega) hsize (by decide) hnum
    obtain ⟨mem, -, heq⟩ := Option.map_eq_some_iff.mp hret
    rw [Option.getD_some] at hpages
    rw [hpages] at hgrown
    refine ⟨(Prod.mk.inj heq).1.symm, hpages.symm ▸ hgrown, ?_, ?_⟩
    · rw [hpages]
      exact ⟨hpos', hlt⟩
    · rw [hpages]
      exact hfits

/-- The bytes of memory do not count. -/
theorem LoadedFresh.withMem {h h' : Heap} {size ptr : Nat} (hloaded : LoadedFresh h h' size ptr)
    (mem : Bytes) : LoadedFresh h { h' with mem := mem } size ptr := by
  obtain ⟨hptr, hgrown, hpages, hfits⟩ := hloaded
  exact ⟨hptr, ⟨hgrown.head, hgrown.virt, hgrown.start, hgrown.total⟩, hpages, hfits⟩

/-- The same for the program of a well-formed file. -/
theorem load_fresh {s : System} {ehdr : Nat} {frames : Bytes} {loaded : Loaded}
    (hfresh : FreshHeap (heapOf s)) (hwf : WellFormedElf s.kernel.mem ehdr)
    (hload : loadElfFile frames s ehdr = some loaded) :
    LoadedFresh (heapOf s) (heapOf loaded.system) (bufferSize s.kernel.mem ehdr) loaded.pgmBuf ∧
      loaded.pgmSize = bufferSize s.kernel.mem ehdr := by
  obtain ⟨hpos, hmod, hlt⟩ := bufferSize_wellFormed hwf
  have htype : ¬ (eType s.kernel.mem ehdr ≠ etExec ∧ eType s.kernel.mem ehdr ≠ etDyn) :=
    fun h => hwf.type.elim h.1 h.2
  unfold loadElfFile at hload
  simp only [if_neg htype] at hload
  obtain ⟨⟨buf, s'⟩, hmalloc, hloaded⟩ := Option.map_eq_some_iff.mp hload
  obtain ⟨⟨ptr, h'⟩, hret, heq⟩ := Option.map_eq_some_iff.mp hmalloc
  obtain ⟨rfl, rfl⟩ := Prod.mk.inj heq
  have hgiven := loadedFresh hfresh (by omega) (by omega) hret
  have hne : ¬ ptr = 0 := by rw [hgiven.ptr]; decide
  simp only [if_neg hne] at hloaded
  subst hloaded
  exact ⟨hgiven.withMem _, rfl⟩

/-- **The stack, the arguments and the program are in the region where the heap begins.** -/
theorem threadPages_region {loaded : Loaded} (hbuf : loaded.pgmBuf = 0x40000C)
    (hsmall : loaded.pgmSize ≤ 256 * 4096) :
    ∀ virt ∈ threadPages (startedThread loaded), virt / 4194304 = 1 := by
  have hstack : stackAddress loaded = 0x40000C + loaded.pgmSize + 4096 := by
    unfold stackAddress pageSize
    rw [hbuf]
    exact u32_eq (by omega)
  have htop : sub32 (stackAddress loaded) 8 = 0x40000C + loaded.pgmSize + 4096 - 8 := by
    rw [hstack]
    exact sub32_eq (by omega) (by omega)
  intro virt hvirt
  unfold threadPages startedThread at hvirt
  simp only [htop, hbuf] at hvirt
  unfold pageSize at hvirt
  rcases List.mem_cons.mp hvirt with heq | hvirt
  · omega
  rcases List.mem_cons.mp hvirt with heq | hvirt
  · rw [u32_eq (by omega)] at heq
    omega
  · obtain ⟨page, hpage, heq⟩ := List.mem_map.mp hvirt
    have hlt := List.mem_range.mp hpage
    rw [u32_eq (by omega)] at heq
    omega

/-! ## 4. The calls of the program -/

/-- A call gets its frames, from a heap that is in use. -/
def ServedCall (dir : Nat) (c : Space) : Event → Prop
  | .malloc bytes _ => nodeSize c.heap.mem c.heap.mallocListHead ≠ 0 ∧
      FramesFor dir (grownPages c.heap bytes) c.machine (heapEnd c.heap)
  | .free _ | .store _ _ => True
  | .create _ _ _ _ | .file _ => False

/-- While a program is executed, the heap has grown by no more than the frames taken. -/
structure Executing (c₀ c : Space) : Prop where
  head : c.heap.mallocListHead ≠ 0
  start : c.heap.mallocStart = 0x400000
  maxBlocks : c.machine.manager.maxBlocks = c₀.machine.manager.maxBlocks
  pages : c₀.heap.totalMallocPages ≤ c.heap.totalMallocPages
  balance : setBits c₀.machine + c.heap.totalMallocPages
    ≤ setBits c.machine + c₀.heap.totalMallocPages

/-- **One call** keeps the balance. -/
theorem Executing.step {dir : Nat} {c₀ c c' : Space} {e : Event} (h : Executing c₀ c)
    (hlimit : c₀.machine.manager.maxBlocks ≤ blockLimit) (hfew : c₀.heap.totalMallocPages ≤ 256)
    (hok : ServedCall dir c e) (hstep : Step dir c e c') : Executing c₀ c' := by
  obtain ⟨hhead, hstart, hmax, hpages, hbalance⟩ := h
  have hcount := (setBits_le c.machine).trans (hmax.trans_le hlimit)
  unfold blockLimit at hcount
  cases hstep with
  | malloc hret hrequest =>
    obtain ⟨hsize, hframes⟩ := hok
    have hgrown := heapGrown_malloc hhead hsize (by omega) hret
    unfold requestPages at hrequest
    rw [readyHeap_started hhead hsize] at hrequest
    have hchanges := changes_mapHeapPages _ _ _ _ (hmax.trans_le hlimit) hframes hrequest
    have hbits := hchanges.bits
    have hcount' := (setBits_le _).trans (hchanges.maxBlocks.trans_le (hmax.trans_le hlimit))
    have htotal := hgrown.total
    unfold blockLimit at hcount'
    generalize grownPages c.heap _ = n at *
    rw [u32_eq (by omega)] at htotal
    exact ⟨hgrown.head.symm ▸ hhead, hgrown.start.trans hstart, hchanges.maxBlocks.trans hmax,
      by simp only [htotal]; omega, by simp only [htotal]; omega⟩
  | free hret =>
    have hgrown := heapGrown_free (by omega) hret
    have htotal := hgrown.total
    rw [u32_eq (by omega), Nat.add_zero] at htotal
    exact ⟨hgrown.head.symm ▸ hhead, hgrown.start.trans hstart, hmax, htotal.symm ▸ hpages,
      by simp only [htotal]; exact hbalance⟩
  | create => exact hok.elim
  | file => exact hok.elim
  | store => exact ⟨hhead, hstart, hmax, hpages, hbalance⟩

/-- The balance of the execution of a program. -/
theorem executing_run {dir : Nat} {c₀ c : Space} (hhead : c₀.heap.mallocListHead ≠ 0)
    (hstart : c₀.heap.mallocStart = 0x400000) (hlimit : c₀.machine.manager.maxBlocks ≤ blockLimit)
    (hfew : c₀.heap.totalMallocPages ≤ 256) (h : Reach (Step dir) (ServedCall dir) c₀ c) :
    Executing c₀ c :=
  h.invariant ⟨hhead, hstart, rfl, Nat.le_refl _, Nat.le_refl _⟩
    fun _ _ _ hs hok hstep => hs.step hlimit hfew hok hstep

/-! ## 5. Every run leaks -/

namespace ProgramRun

variable {dir stdPages pages : Nat} {m m' : Machine}

/-- Memory suffices: every page gets a frame. -/
structure Served (r : ProgramRun dir stdPages pages m m') : Prop where
  opening : FramesFor dir pages m (nextFile stdPages)
  loading : FramesFor dir (grownPages (heapOf r.system) (bufferSize r.system.kernel.mem r.ehdr))
    r.opened (heapEnd (heapOf r.system))
  stack : (allocateBlocks r.grown.manager 1).1 ≠ 0
  args : (allocateBlocks r.stacked.manager 1).1 ≠ 0
  execution : Reach (Step dir) (ServedCall dir) r.started r.left
  heap : (allocateBlocks r.exited.manager 1).1 ≠ 0
  files : ∀ m₁, mapNewPage r.exited dir 0x400000 = some m₁ → FramesFor dir stdPages m₁ fileStart

/-- The program starts: its file buffer is closed, its heap has grown by `n` pages. -/
structure StartedWith (r : ProgramRun dir stdPages pages m m') (n : Nat) : Prop where
  pages : 0 < n ∧ n < 256
  region : ∀ virt ∈ threadPages (startedThread r.loaded), virt / 4194304 = 1
  head : r.started.heap.mallocListHead = 0x400000
  start : r.started.heap.mallocStart = 0x400000
  total : r.started.heap.totalMallocPages = 1 + n
  changes : Changes (n + 2) 0 m r.started.machine

/-- **Up to its start** a program takes the pages by which the heap grew, the stack and the
arguments. -/
theorem startedWith (r : ProgramRun dir stdPages pages m m') (hserved : r.Served)
    (hlimit : m.manager.maxBlocks ≤ blockLimit) : ∃ n, r.StartedWith n := by
  obtain ⟨hgiven, hsize⟩ := load_fresh r.fresh r.wellFormed r.load_eq
  have hgrown := r.grown_eq
  unfold requestPages at hgrown
  rw [readyHeap_started (by rw [r.fresh.head]; decide)
    (by rw [r.fresh.head, r.fresh.size]; decide)] at hgrown
  have hloading := hserved.loading
  obtain ⟨hptr, hstatics, ⟨hpos, hfew⟩, hfits⟩ := hgiven
  have htotal := hstatics.total
  rw [r.fresh.total] at htotal
  change mapHeapPages dir (grownPages (heapOf r.system) (bufferSize r.system.kernel.mem r.ehdr))
    r.opened (heapEnd (heapOf r.system)) = some r.grown at hgrown
  generalize grownPages (heapOf r.system) (bufferSize r.system.kernel.mem r.ehdr) = n at *
  rw [u32_eq (by omega)] at htotal
  have hopened := changes_mapHeapPages _ _ _ _ hlimit hserved.opening r.open_eq
  have hlimit₁ := hopened.maxBlocks.trans_le hlimit
  have hloaded := changes_mapHeapPages _ _ _ _ hlimit₁ hloading hgrown
  have hlimit₂ := hloaded.maxBlocks.trans_le hlimit₁
  have hstacked : Changes 1 0 r.grown r.stacked :=
    (@changes_mapNewPage { r.grown with memory := r.memory } _ _ _ hlimit₂ hserved.stack
      r.stack_eq).of_manager rfl rfl
  have hargs := changes_mapNewPage (hstacked.maxBlocks.trans_le hlimit₂) hserved.args r.args_eq
  have hclosed := @changes_closePages dir pages r.ready (nextFile stdPages)
  have hall := (((hopened.trans hloaded).trans hstacked).trans hargs).trans hclosed
  have hbits := hall.bits
  refine ⟨n, ⟨hpos, hfew⟩, threadPages_region hptr (by rw [hsize]; omega),
    hstatics.head.trans r.fresh.head, hstatics.start.trans r.fresh.start, htotal,
    hall.maxBlocks, ?_⟩
  show setBits m + (n + 2)
    ≤ setBits (closePages dir pages r.ready (nextFile stdPages)) + 0
  omega

/-- **A run leaks**: the pages of the heap, but for at most one, are never given back. -/
theorem run_leaks (r : ProgramRun dir stdPages pages m m') (hserved : r.Served)
    (hlimit : m.manager.maxBlocks ≤ blockLimit) : setBits m < setBits m' := by
  obtain ⟨n, ⟨hpos, hfew⟩, hregion, hhead, hstart, htotal, hstarted⟩ := r.startedWith hserved hlimit
  have hlimit' := hstarted.maxBlocks.trans_le hlimit
  have hexec := executing_run (by rw [hhead]; decide) hstart hlimit' (by rw [htotal]; omega)
    hserved.execution
  have hlimit'' := hexec.maxBlocks.trans_le hlimit'
  -- `exit` gives back two blocks of the region of the stack, and a table for every region.
  have hfiles := @changes_closePages dir stdPages r.left.machine fileStart
  have hreleased := @changes_releasePages dir 1 (threadPages (startedThread r.loaded)) r.closed
    hregion
  have hunmapped := @changes_unmapHeap dir r.left.heap hexec.start
    ((threadPages (startedThread r.loaded)).foldl (releasePage dir) r.closed)
  have hexited : Changes 0 (stdPages + (2 + (r.left.heap.totalMallocPages + 1023) / 1024))
      r.left.machine r.exited := hfiles.trans (hreleased.trans hunmapped)
  have hlimit₃ := hexited.maxBlocks.trans_le hlimit''
  -- The shell takes a page for the heap, and those of the standard files.
  obtain ⟨m₁, hinit, hshell⟩ := Option.bind_eq_some_iff.mp r.shell_eq
  have hpage := changes_mapNewPage hlimit₃ hserved.heap hinit
  have hopened := changes_mapHeapPages _ _ _ _ (hpage.maxBlocks.trans_le hlimit₃)
    (hserved.files m₁ hinit) hshell
  have hbits := hstarted.bits
  have hbits' := ((hexited.trans hpage).trans hopened).bits
  have hbalance := hexec.balance
  have hgrew := hexec.pages
  rw [htotal] at hbalance hgrew
  omega

end ProgramRun

/-- **No run keeps the balance**: when memory suffices for the first of `n` runs, the balance is
kept only if there is none. -/
theorem balance_kept_iff (dir stdPages pages n : Nat) (m : Nat → Machine)
    (runs : ∀ i < n, ProgramRun dir stdPages pages (m i) (m (i + 1)))
    (hlimit : (m 0).manager.maxBlocks ≤ blockLimit) (hserved : ∀ h : 0 < n, (runs 0 h).Served) :
    Balanced dir stdPages pages n m runs ↔ n = 0 := by
  constructor
  · intro h
    by_contra hne
    have hn := Nat.pos_of_ne_zero hne
    have hleak := (runs 0 hn).run_leaks (hserved hn) hlimit
    exact absurd (h.same 1 hn) hleak.ne'
  · rintro rfl
    refine ⟨fun i hi => ?_, fun i hi => absurd hi (Nat.not_lt_zero i),
      fun i hi => absurd hi (Nat.not_lt_zero i)⟩
    rw [Nat.le_zero.mp hi]

/-! ## 6. A program that exits at once -/

/-- `init_malloc` leaves a fresh heap. -/
theorem freshHeap_initMalloc (mem frames : Bytes) : FreshHeap (initMalloc mem frames) := by
  refine ⟨rfl, rfl, rfl, rfl, ?_, ?_⟩
  · unfold initMalloc
    simp only [Malloc.nodeSize_setNext, Malloc.nodeSize_setFree, Malloc.nodeSize_setSize]
    rfl
  · unfold initMalloc
    simp only [Malloc.nodeNext_setNext]
    rfl

/-- The shell on a machine of 64 blocks, with three empty standard files. -/
def promptMachine : Machine := (startShell 4096 3 emptyMachine).getD emptyMachine

/-- A fresh heap, and in the first free file buffer an executable of one section of a page. -/
def elfMemory : Bytes := fun p =>
  if p = 0x40003010 then 2
  else if p = 0x4000301C then 52
  else if p = 0x4000302C then 1
  else if p = 0x40003034 then 1
  else if p = 0x40003049 then 16
  else if p = 0x40003051 then 16
  else (initMalloc zeros zeros).mem p

/-- The system when it is loaded. -/
def elfSystem : System :=
  { bootedComputer.system with
    kernel := { bootedComputer.system.kernel with mem := elfMemory }
    heap := initMalloc zeros zeros }

/-- The result of loading it. -/
def elfLoaded : Loaded := (loadElfFile zeros elfSystem 0x40003000).getD ⟨0, 0, 0, elfSystem⟩

/-- The machine when the file is open, when the heap has grown, and with the stack and the
arguments. -/
def openedMachine : Machine := (openPages 4096 1 promptMachine (nextFile 3)).getD promptMachine

def grownMachine : Machine := (requestPages 4096 (heapOf elfSystem) openedMachine
  (bufferSize elfSystem.kernel.mem 0x40003000) zeros).getD openedMachine

def stackedMachine : Machine :=
  (mapNewPage { grownMachine with memory := grownMachine.memory } 4096
    (stackAddress elfLoaded)).getD grownMachine

def readyMachine : Machine :=
  (mapNewPage stackedMachine 4096 (argsAddress elfLoaded)).getD stackedMachine

/-- The program has started, and calls `exit`. -/
def leftSpace : Space :=
  ⟨closePages 4096 1 readyMachine (nextFile 3), heapOf elfLoaded.system,
    some (stackAddress elfLoaded)⟩

/-- The machine when `syscall_exit` calls `shell`. -/
def exitedMachine : Machine := exitPages 4096 (startedThread elfLoaded) leftSpace.heap
  (closePages 4096 3 leftSpace.machine fileStart)

/-- The next prompt. -/
def nextMachine : Machine := (startShell 4096 3 exitedMachine).getD exitedMachine

theorem elf_wellFormed : WellFormedElf elfMemory 0x40003000 := by
  have hone : ∀ phdr, Loads elfMemory 0x40003000 phdr → phdr = phdrAt elfMemory 0x40003000 0 := by
    rintro phdr ⟨-, i, hi, rfl⟩
    have hnum : ePhnum elfMemory 0x40003000 = 1 := by decide +kernel
    rw [hnum] at hi
    rw [Nat.lt_one_iff.mp hi]
  have hvalues : eType elfMemory 0x40003000 = etExec ∧
      (phdrAt elfMemory 0x40003000 0).type = ptLoad ∧ 0 < ePhnum elfMemory 0x40003000 ∧
      (phdrAt elfMemory 0x40003000 0).memsz = 4096 ∧
      (phdrAt elfMemory 0x40003000 0).align = 4096 ∧
      (phdrAt elfMemory 0x40003000 0).vaddr = 0 := by decide +kernel
  obtain ⟨htype, hload, hnum, hsize, halign, hvaddr⟩ := hvalues
  refine ⟨Or.inl htype, ⟨_, ⟨hload, 0, hnum, rfl⟩, by rw [hsize]; decide⟩,
    fun phdr hphdr => Or.inr ⟨12, by decide, ?_⟩, fun phdr hphdr => ⟨?_, fun phdr' hphdr' => ?_⟩⟩
  · rw [hone phdr hphdr, halign]
    rfl
  · rw [hone phdr hphdr, hvaddr, hsize]
    decide
  · rw [hone phdr hphdr, hone phdr' hphdr', hvaddr, hsize, halign]
    decide

theorem elf_fresh : FreshHeap (heapOf elfSystem) :=
  ⟨rfl, rfl, rfl, rfl, by decide +kernel, by decide +kernel⟩

/-- The run of that program. -/
def firstRun : ProgramRun 4096 3 1 promptMachine nextMachine where
  opened := openedMachine
  open_eq := (Option.getD_of_ne_none (by decide +kernel) _).symm
  system := elfSystem
  ehdr := 0x40003000
  frames := zeros
  fresh := elf_fresh
  wellFormed := elf_wellFormed
  loaded := elfLoaded
  load_eq := (Option.getD_of_ne_none (by decide +kernel) _).symm
  grown := grownMachine
  grown_eq := (Option.getD_of_ne_none (by decide +kernel) _).symm
  memory := grownMachine.memory
  copied := fun _ _ => rfl
  stacked := stackedMachine
  stack_eq := (Option.getD_of_ne_none (by decide +kernel) _).symm
  ready := readyMachine
  args_eq := (Option.getD_of_ne_none (by decide +kernel) _).symm
  left := leftSpace
  execution := .refl
  shell_eq := (Option.getD_of_ne_none (by decide +kernel) _).symm

/-- The frames of a loop, checked one by one. -/
theorem framesFor_of {dir n : Nat} {m : Machine} {virt : Nat}
    (h : ∀ i < n, (mapHeapPages dir i m virt).map (fun mi => (allocateBlocks mi.manager 1).1)
      ≠ some 0) : FramesFor dir n m virt := by
  intro i hi mi hmi hnull
  refine h i hi ?_
  rw [hmi, Option.map_some, hnull]

theorem firstRun_served : firstRun.Served where
  opening := framesFor_of (by decide +kernel)
  loading := framesFor_of (by decide +kernel)
  stack := by decide +kernel
  args := by decide +kernel
  execution := .refl
  heap := by decide +kernel
  files := by
    intro m₁ hm₁
    have hfirst : ∀ i < 3, ((mapNewPage exitedMachine 4096 0x400000).bind fun m =>
        (mapHeapPages 4096 i m fileStart).map fun mi => (allocateBlocks mi.manager 1).1) ≠ some 0 := by
      decide +kernel
    have hinit : mapNewPage exitedMachine 4096 0x400000 = some m₁ := hm₁
    refine framesFor_of fun i hi => ?_
    have hne := hfirst i hi
    rw [hinit, Option.bind_some] at hne
    exact hne

/-- The prompts of that run: before it and after it. -/
def firstPrompts : Nat → Machine
  | 0 => promptMachine
  | _ => nextMachine

/-- The one run. -/
def firstRuns : ∀ i < 1, ProgramRun 4096 3 1 (firstPrompts i) (firstPrompts (i + 1))
  | 0, _ => firstRun

/-- **The first run leaks already.** -/
theorem balance_lost : ¬ ∀ (dir stdPages pages n : Nat) (m : Nat → Machine)
    (runs : ∀ i < n, ProgramRun dir stdPages pages (m i) (m (i + 1))),
    (m 0).manager.maxBlocks ≤ blockLimit → Balanced dir stdPages pages n m runs := by
  intro hall
  have hlimit : (firstPrompts 0).manager.maxBlocks ≤ blockLimit := by decide +kernel
  have hsame := (hall 4096 3 1 1 firstPrompts firstRuns hlimit).same 1 (Nat.le_refl 1)
  exact absurd hsame (firstRun.run_leaks firstRun_served hlimit).ne'

/-- The theorem for that run. -/
theorem balance_kept_first : ¬ Balanced 4096 3 1 1 firstPrompts firstRuns := by
  rw [balance_kept_iff 4096 3 1 1 firstPrompts firstRuns (by decide +kernel)
    fun _ => firstRun_served]
  decide

end AmateurOs.Exec
