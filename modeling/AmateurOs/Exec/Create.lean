/-
# Starting a program

A model of `create_process` and `execute_process` of `include/process/process.h` and of the part
of `shell` that calls them.  The system calls work on the kernel's tables and on the memory that
programs see; `allocate_blocks` and `map_address` of the stack and of the arguments work on
physical memory and its bitmap, where the translations are.

`create_process` returns 0 when it cannot open the file, goes on when `load_elf_file` returns
`NULL` and does not look at what `allocate_blocks` returns; `shell` takes a negative number for a
failure.  So no failure is reported (`create_reports`), and starting a program is all or nothing
exactly when nothing fails (`all_or_nothing_iff`).
-/
import AmateurOs.Exec.Loader
import AmateurOs.Memory.Mapping

namespace AmateurOs.Exec

open AmateurOs.Lib
open AmateurOs.Syscalls (System Ext oRdwr syscallOpen syscallClose)
open AmateurOs.Fs (CString)
open AmateurOs.Memory (Machine allocateBlocks mapAddress mapFuel getPhysicalAddress pageSize)

/-! ## 1. Processes -/

/-- The main thread: `stack`, `pgm_buf`, `pgm_size` and four of its registers. -/
structure Thread where
  stack : Nat
  pgmBuf : Nat
  pgmSize : Nat
  eip : Nat
  esp : Nat
  ebp : Nat
  eflags : Nat

/-- The process record `_proc`. -/
structure Process where
  id : Nat
  pageDir : Nat
  thread : Thread

/-- The kernel with physical memory, `current_page_directory` and the process record. -/
structure Computer where
  system : System
  machine : Machine
  currentPageDirectory : Nat
  proc : Process

/-- What a start gets from outside: what `open` and `close` get, and what the frames hold that
`malloc` and `create_process` map, by virtual address. -/
structure Outside where
  openExt : Ext
  closeExt : Ext
  mallocFrames : Bytes
  frames : Bytes

/-- `PTE_PRESENT | PTE_READ_WRITE | PTE_USER`. -/
def userFlags : Nat := 7

/-! ## 2. `create_process` -/

/-- `open(argv[0], O_RDWR)`. -/
def openProgram (o : Outside) (c : Computer) (path : CString) : Int × System :=
  let r := syscallOpen o.openExt c.system.kernel path oRdwr
  (r.1, { c.system with kernel := r.2 })

/-- `close(fd)`. -/
def closeProgram (o : Outside) (s : System) (fd : Int) : System :=
  { s with kernel := (syscallClose o.closeExt s.kernel fd).2 }

/-- `load_elf_file` of the file opened as `fd`. -/
def loadProgram (o : Outside) (s : System) (fd : Int) : Option Loaded :=
  loadElfFile o.mallocFrames s (s.kernel.openFileTable fd.toNat).address

/-- `allocate_blocks(1)` and `map_address` of its result, whatever it is, at `virt`. -/
def mapNewPage (m : Machine) (dir virt : Nat) : Option Machine :=
  let allocated := allocateBlocks m.manager 1
  (mapAddress mapFuel { m with manager := allocated.2 } dir allocated.1 virt userFlags).map (·.2)

/-- The loop that copies the arguments: pointers from `userArgv` on, strings from `argp` on. -/
def writeArgv : List CString → Bytes → Nat → Nat → Bytes
  | [], mem, _, _ => mem
  | arg :: argv, mem, userArgv, argp =>
    let mem := put32 mem userArgv argp
    let mem := blit mem argp (arg.chars.length + 1) arg.bytes
    writeArgv argv mem (u32 (userArgv + 4)) (u32 (argp + arg.chars.length + 1))

/-- The address of the stack page, behind the program. -/
def stackAddress (loaded : Loaded) : Nat := u32 (loaded.pgmBuf + loaded.pgmSize + pageSize)

/-- The address of the arguments. -/
def argsAddress (loaded : Loaded) : Nat := u32 (stackAddress loaded + pageSize)

/-- The memory after the stack and the arguments were mapped and written. -/
def writeStack (o : Outside) (mem : Bytes) (argv : List CString) (loaded : Loaded) : Bytes :=
  let stack := stackAddress loaded
  let args := argsAddress loaded
  let mem := Malloc.mapPage mem o.frames (stack / 4096 * 4096)
  let mem := Malloc.mapPage mem o.frames (args / 4096 * 4096)
  let mem := writeArgv argv mem args (u32 (args + 40))
  let mem := put32 mem (sub32 stack 4) argv.length
  put32 mem stack args

/-- The main thread of a program that was loaded. -/
def startedThread (loaded : Loaded) : Thread where
  stack := sub32 (stackAddress loaded) 8
  pgmBuf := loaded.pgmBuf
  pgmSize := loaded.pgmSize
  eip := loaded.entryPoint
  esp := sub32 (stackAddress loaded) 8
  ebp := sub32 (stackAddress loaded) 8
  eflags := 0x200

/-- The part of `create_process` after the file was opened as `fd` and loaded. -/
def startLoaded (o : Outside) (argv : List CString) (c : Computer) (fd : Int) (loaded : Loaded) :
    Option (Nat × Computer) :=
  (mapNewPage c.machine c.currentPageDirectory (stackAddress loaded)).bind fun m =>
    (mapNewPage m c.currentPageDirectory (argsAddress loaded)).map fun m =>
      let s := loaded.system
      let s := { s with
        kernel := { s.kernel with mem := writeStack o s.kernel.mem argv loaded }
        processId := 1 }
      (1, { system := closeProgram o s fd
            machine := m
            currentPageDirectory := c.currentPageDirectory
            proc := { id := 1, pageDir := c.currentPageDirectory, thread := startedThread loaded } })

/-- `create_process`: the process id and what it leaves; `none` when `malloc` does not return. -/
def createProcess (o : Outside) (argv : List CString) (path : CString) (c : Computer) :
    Option (Nat × Computer) :=
  let opened := openProgram o c path
  if opened.1 < 0 then some (0, { c with system := opened.2 })
  else if c.currentPageDirectory = 0 then
    some (0, { c with system := closeProgram o opened.2 opened.1 })
  else (loadProgram o opened.2 opened.1).bind (startLoaded o argv c opened.1)

/-! ## 3. The shell -/

/-- `shell` goes on to `execute_process` unless `pid < 0`. -/
def shellExecutes (pid : Nat) : Bool := !decide (toInt32 pid < 0)

/-- `execute_process`: the entry point and the stack pointer that user mode starts with. -/
def executeProcess (proc : Process) : Option (Nat × Nat) :=
  if proc.id = 0 ∨ proc.pageDir = 0 then none else some (proc.thread.eip, proc.thread.esp)

/-! ## 4. All or nothing -/

/-- The second block of a start: what is left after the stack was mapped. -/
def afterStack (c : Computer) (loaded : Loaded) : Option Machine :=
  mapNewPage c.machine c.currentPageDirectory (stackAddress loaded)

/-- **The failures of a start**: opening the file, the page directory, loading the file, and the
two frames. -/
inductive Fails (o : Outside) (path : CString) (c : Computer) : Prop
  | opening (h : (openProgram o c path).1 < 0)
  | addressSpace (h : c.currentPageDirectory = 0)
  | loading {loaded : Loaded} (hopen : 0 ≤ (openProgram o c path).1)
      (hload : loadProgram o (openProgram o c path).2 (openProgram o c path).1 = some loaded)
      (hnull : loaded.entryPoint = 0)
  | stackFrame {loaded : Loaded} (hopen : 0 ≤ (openProgram o c path).1)
      (hload : loadProgram o (openProgram o c path).2 (openProgram o c path).1 = some loaded)
      (hnull : (allocateBlocks c.machine.manager 1).1 = 0)
  | argsFrame {loaded : Loaded} {m : Machine} (hopen : 0 ≤ (openProgram o c path).1)
      (hload : loadProgram o (openProgram o c path).2 (openProgram o c path).1 = some loaded)
      (hstack : afterStack c loaded = some m) (hnull : (allocateBlocks m.manager 1).1 = 0)

/-- Nothing of a start is left: no translation, entry point or stack pointer is changed. -/
structure Unchanged (c c' : Computer) : Prop where
  translation : ∀ w < 4294967296, getPhysicalAddress c'.machine.memory c.currentPageDirectory w
    = getPhysicalAddress c.machine.memory c.currentPageDirectory w
  eip : c'.proc.thread.eip = c.proc.thread.eip
  stack : c'.proc.thread.stack = c.proc.thread.stack
  esp : c'.proc.thread.esp = c.proc.thread.esp

/-- **Starting a program is all or nothing**: after a failure `create_process` returns what `shell`
tests for, nothing is left and the program is not executed; when it reports success, the entry
point is that of the file it loaded. -/
structure AllOrNothing (o : Outside) (argv : List CString) (path : CString) (c : Computer) :
    Prop where
  nothing : Fails o path c → ∃ pid c', createProcess o argv path c = some (pid, c') ∧
    shellExecutes pid = false ∧ Unchanged c c'
  all : ∀ pid c', createProcess o argv path c = some (pid, c') → shellExecutes pid = true →
    ∃ loaded, loadProgram o (openProgram o c path).2 (openProgram o c path).1 = some loaded ∧
      c'.proc.thread.eip = loaded.entryPoint ∧ 0 ≤ (openProgram o c path).1

/-- What `create_process` returns is 0 or 1, so `shell` executes the program. -/
theorem create_reports {o : Outside} {argv : List CString} {path : CString} {c c' : Computer}
    {pid : Nat} (h : createProcess o argv path c = some (pid, c')) : shellExecutes pid = true := by
  have hpid : pid = 0 ∨ pid = 1 := by
    unfold createProcess at h
    simp only [] at h
    split at h
    · exact Or.inl (Prod.mk.inj (Option.some.inj h)).1.symm
    · split at h
      · exact Or.inl (Prod.mk.inj (Option.some.inj h)).1.symm
      · obtain ⟨loaded, -, hstart⟩ := Option.bind_eq_some_iff.mp h
        obtain ⟨m, -, hargs⟩ := Option.bind_eq_some_iff.mp hstart
        obtain ⟨m', -, hr⟩ := Option.map_eq_some_iff.mp hargs
        exact Or.inr (Prod.mk.inj hr).1.symm
  rcases hpid with rfl | rfl <;> decide

/-- **Starting a program is all or nothing exactly when nothing fails.** -/
theorem all_or_nothing_iff (o : Outside) (argv : List CString) (path : CString) (c : Computer) :
    AllOrNothing o argv path c ↔ ¬ Fails o path c := by
  constructor
  · intro h hfails
    obtain ⟨pid, c', hcreate, hnot, -⟩ := h.nothing hfails
    exact absurd ((create_reports hcreate).symm.trans hnot) (by decide)
  · intro hfails
    refine ⟨fun h => absurd h hfails, fun pid c' hcreate _ => ?_⟩
    have hopen : ¬ (openProgram o c path).1 < 0 := fun h => hfails (.opening h)
    have hdir : ¬ c.currentPageDirectory = 0 := fun h => hfails (.addressSpace h)
    unfold createProcess at hcreate
    simp only [if_neg hopen, if_neg hdir] at hcreate
    obtain ⟨loaded, hload, hstart⟩ := Option.bind_eq_some_iff.mp hcreate
    obtain ⟨m, -, hargs⟩ := Option.bind_eq_some_iff.mp hstart
    obtain ⟨m', -, hr⟩ := Option.map_eq_some_iff.mp hargs
    obtain ⟨-, rfl⟩ := Prod.mk.inj hr
    exact ⟨loaded, hload, rfl, Int.not_lt.mp hopen⟩

/-- A computer after boot with an empty root directory. -/
def bootedComputer : Computer where
  system := ⟨Syscalls.freshKernel (Fs.noInode.setId 1), ⟨fun _ => 0, 0, 0, 0, 0⟩, 0⟩
  machine := Memory.emptyMachine
  currentPageDirectory := 4096
  proc := ⟨0, 0, ⟨0, 0, 0, 0, 0, 0, 0⟩⟩

/-- Nothing but zeros around the computer. -/
def quietOutside : Outside := ⟨Syscalls.quietExt, Syscalls.quietExt, fun _ => 0, fun _ => 0⟩

/-- The path `a`. -/
def missingPath : CString where
  chars := [97]
  nonzero := List.forall_mem_singleton.mpr (by decide)
  after := fun _ => 0

/-- **A missing file is not reported**: `shell` executes a program that could not be opened. -/
theorem failure_unreported : ¬ ∀ (o : Outside) (argv : List CString) (path : CString)
    (c : Computer), c.currentPageDirectory ≠ 0 → AllOrNothing o argv path c := by
  intro hall
  have hfails : Fails quietOutside missingPath bootedComputer := .opening (by decide +kernel)
  obtain ⟨pid, c', hcreate, hnot, -⟩ := (hall quietOutside [missingPath] missingPath bootedComputer
    (by decide)).nothing hfails
  exact absurd ((create_reports hcreate).symm.trans hnot) (by decide)

end AmateurOs.Exec
