/-
# Which table elements a system call touches

A model of `do_syscall` of `include/interrupts/syscalls.h`: the call number and the arguments come
from the registers of the program, signed 32-bit words, and index `syscalls[]`,
`open_file_table[]` and `open_inode_table[]`.  `accesses` lists the elements that a call reads or
writes, in the order of the code.

* The call number is checked from above only, and so is nothing else: a negative number reads
  behind `syscalls[]`, and a descriptor is checked from below only.
* The first search of `syscall_open` for a file that is not open ends one behind the last element
  of `open_inode_table[]`, whose id is read; a search of a full table ends there as well, and then
  the element is written.

`bounded_iff` says when the accesses stay inside and an invalid call is refused, for all registers
and all states of the tables.
-/
import AmateurOs.Syscalls.Counts

namespace AmateurOs.Syscalls

open AmateurOs.Lib
open AmateurOs.Fs (Inode CString)

/-! ## 1. The dispatcher -/

/-- `MAX_SYSCALLS`. -/
def maxSyscalls : Nat := 10

/-- The registers that the dispatcher and the handlers read, as 32-bit words. -/
structure Regs where
  syscallNum : Nat
  ebx : Nat
  ecx : Nat
  edx : Nat

/-- The kernel, the static variables of `malloc.h`, whose memory is the kernel's, and the id of the
current process. -/
structure System where
  kernel : Kernel
  heap : Malloc.Heap
  processId : Nat

/-- What a call gets from outside: the frames it maps and the string that `ebx` points to. -/
structure Arguments where
  ext : Ext
  filepath : CString

/-- The functions of `syscalls[]`. -/
inductive Handler
  | test0
  | exit
  | sleep
  | malloc
  | free
  | write
  | open
  | close
  | read
  | seek
deriving DecidableEq

/-- `syscalls[]`. -/
def syscalls : List Handler :=
  [.test0, .exit, .sleep, .malloc, .free, .write, .open, .close, .read, .seek]

/-- The element of `syscalls[]` with a number, none outside the table. -/
def handlerOf (num : Int) : Option Handler := if num < 0 then none else syscalls[num.toNat]?

/-- What a call comes to. -/
inductive Outcome
  /-- It returns, with these values in `eax` and `edx`. -/
  | returned (eax : Int) (edx : Nat) (s : System)
  /-- The process ends and the shell goes on. -/
  | entersShell (s : System)
  /-- A loop that is never left, or a jump to what lies outside `syscalls[]`. -/
  | lost

/-- `whence_value_t`. -/
def whenceOf (edx : Nat) : Whence :=
  match u32 edx with
  | 0 => .seekSet
  | 1 => .seekCur
  | 2 => .seekEnd
  | _ => .invalid

/-- A handler with the registers as its arguments. -/
def Handler.run (args : Arguments) (s : System) (regs : Regs) : Handler → Outcome
  | .test0 => .returned 0 regs.edx s
  | .exit =>
    if s.processId = 0 then .returned (-1) regs.edx s
    else .entersShell { s with kernel := syscallExit args.ext s.kernel }
  | .sleep => .returned 0 regs.edx s
  | .malloc =>
    match Malloc.syscallMalloc { s.heap with mem := s.kernel.mem } (u32 regs.ebx)
        args.ext.frames with
    | none => .lost
    | some (ptr, heap) =>
      .returned 0 ptr { s with kernel := { s.kernel with mem := heap.mem }, heap := heap }
  | .free =>
    match Malloc.syscallFree { s.heap with mem := s.kernel.mem } (u32 regs.ebx) with
    | none => .lost
    | some heap =>
      .returned 0 regs.edx { s with kernel := { s.kernel with mem := heap.mem }, heap := heap }
  | .write =>
    let r := syscallWrite args.ext s.kernel (toInt32 regs.ebx) (slice s.kernel.mem (u32 regs.ecx))
      (u32 regs.edx)
    .returned r.1 regs.edx { s with kernel := r.2 }
  | .open =>
    let r := syscallOpen args.ext s.kernel args.filepath (u32 regs.ecx)
    .returned r.1 regs.edx { s with kernel := r.2 }
  | .close =>
    let r := syscallClose args.ext s.kernel (toInt32 regs.ebx)
    .returned r.1 regs.edx { s with kernel := r.2 }
  | .read =>
    let r := syscallRead s.kernel (toInt32 regs.ebx) (u32 regs.edx)
    let mem := blit r.2.2.mem (u32 regs.ecx) r.2.1.length fun k => r.2.1.getD k 0
    .returned r.1 regs.edx { s with kernel := { r.2.2 with mem := mem } }
  | .seek =>
    let r := syscallSeek s.kernel (toInt32 regs.ebx) (toInt32 regs.ecx) (whenceOf regs.edx)
    .returned r.1 regs.edx { s with kernel := r.2 }

/-- `do_syscall`. -/
def doSyscall (args : Arguments) (s : System) (regs : Regs) : Outcome :=
  if toInt32 regs.syscallNum ≥ maxSyscalls then .returned (-1) regs.edx s
  else
    match handlerOf (toInt32 regs.syscallNum) with
    | none => .lost
    | some handler => handler.run args s regs

/-! ## 2. The elements that are accessed -/

/-- An access to an element of one of the three tables. -/
inductive TableAccess
  | syscalls (i : Int)
  | openFile (i : Int)
  | openInode (i : Int)

/-- The element is one of the table's. -/
def TableAccess.Inside : TableAccess → Prop
  | .syscalls i => 0 ≤ i ∧ i < maxSyscalls
  | .openFile i => 0 ≤ i ∧ i < maxOpen
  | .openInode i => 0 ≤ i ∧ i < maxOpen

/-- A handler of a descriptor: the element of the file table and, when the handler `uses` it, the
element that its `inode` points to. -/
def descriptorAccesses (oft : OpenFile) (fd : Int) (uses : Bool) : List TableAccess :=
  if fd < 0 then []
  else .openFile fd ::
    match oft.inode with
    | none => []
    | some i => if uses then [.openInode i] else []

/-- Whether `syscall_close` uses the inode. -/
def closeUses (oft : OpenFile) : Bool := oft.refCount != 0

/-- Whether `syscall_write` uses the inode. -/
def writeUses (oft : OpenFile) : Bool :=
  oft.refCount != 0 && (hasFlag oft.flags oWronly || hasFlag oft.flags oRdwr)

/-- Whether `syscall_read` uses the inode. -/
def readUses (oft : OpenFile) : Bool :=
  oft.address != 0 && oft.refCount != 0 && !hasFlag oft.flags oWronly

/-- Whether `syscall_seek` uses the inode. -/
def seekUses (oft : OpenFile) (whence : Whence) : Bool :=
  oft.refCount != 0 && whence == .seekEnd

/-- The accesses of `syscall_close`. -/
def closeAccesses (k : Kernel) (fd : Int) : List TableAccess :=
  descriptorAccesses (k.openFileTable fd.toNat) fd (closeUses (k.openFileTable fd.toNat))

/-- The accesses of `syscall_open` once it has the inode: the search for the inode and the element
where it stops; the search for an empty element when that is not the inode's; the search for a
descriptor. -/
def openAccesses (k : Kernel) (fileInode : Inode) : List TableAccess :=
  let stop := searchInode k.openInodeTable fileInode.id
  (List.range (stop + 1)).map (fun i => .openInode i) ++
    (if fileInode.id = (k.openInodeTable stop).id then []
      else (List.range (searchInode k.openInodeTable 0 + 1)).map fun i => .openInode i) ++
    (List.range (searchFd k.openFileTable + 1)).map fun i => .openFile i

/-- The accesses of a handler.  `syscall_exit` closes three descriptors by system calls. -/
def Handler.accesses (args : Arguments) (s : System) (regs : Regs) : Handler → List TableAccess
  | .test0 | .sleep | .malloc | .free => []
  | .exit =>
    if s.processId = 0 then []
    else
      let k₁ := (syscallClose args.ext s.kernel 0).2
      let k₂ := (syscallClose args.ext k₁ 1).2
      .syscalls 7 :: closeAccesses s.kernel 0 ++ .syscalls 7 :: closeAccesses k₁ 1 ++
        .syscalls 7 :: closeAccesses k₂ 2
  | .write =>
    let fd := toInt32 regs.ebx
    if fd = 1 ∨ fd = 2 then []
    else
      let oft := s.kernel.openFileTable fd.toNat
      descriptorAccesses oft fd (writeUses oft)
  | .open =>
    let fileInode := inodeToOpen args.ext s.kernel args.filepath (u32 regs.ecx)
    if fileInode.id = 0 then [] else openAccesses s.kernel fileInode
  | .close => closeAccesses s.kernel (toInt32 regs.ebx)
  | .read =>
    let oft := s.kernel.openFileTable (toInt32 regs.ebx).toNat
    descriptorAccesses oft (toInt32 regs.ebx) (readUses oft)
  | .seek =>
    let oft := s.kernel.openFileTable (toInt32 regs.ebx).toNat
    descriptorAccesses oft (toInt32 regs.ebx) (seekUses oft (whenceOf regs.edx))

/-- The accesses of a call. -/
def accesses (args : Arguments) (s : System) (regs : Regs) : List TableAccess :=
  if toInt32 regs.syscallNum ≥ maxSyscalls then []
  else .syscalls (toInt32 regs.syscallNum) ::
    match handlerOf (toInt32 regs.syscallNum) with
    | none => []
    | some handler => handler.accesses args s regs

/-! ## 3. The condition -/

/-- A descriptor that a handler may index with: below the end of the table, and its `inode` points
into `open_inode_table[]` when the handler uses it; a negative one is refused. -/
def DescriptorInRange (oft : OpenFile) (fd : Int) (uses : Bool) : Prop :=
  fd < 0 ∨ (fd < maxOpen ∧ ∀ i, oft.inode = some i → uses = true → i < maxOpen)

/-- A descriptor's element is free for `syscall_open`. -/
def FreeElement (oft : OpenFile) : Prop := oft.address = 0 ∨ oft.refCount = 0

/-- When the accesses of a handler stay inside. -/
def Handler.InRange (args : Arguments) (s : System) (regs : Regs) : Handler → Prop
  | .test0 | .sleep | .malloc | .free => True
  | .exit => s.processId = 0 ∨ ∀ fd < 3,
      DescriptorInRange (s.kernel.openFileTable fd) fd (closeUses (s.kernel.openFileTable fd))
  | .write =>
    let fd := toInt32 regs.ebx
    let oft := s.kernel.openFileTable fd.toNat
    fd = 1 ∨ fd = 2 ∨ DescriptorInRange oft fd (writeUses oft)
  | .open =>
    let fileInode := inodeToOpen args.ext s.kernel args.filepath (u32 regs.ecx)
    fileInode.id = 0 ∨ ((∃ i < maxOpen, (s.kernel.openInodeTable i).id = fileInode.id) ∧
      ∃ d < maxOpen, FreeElement (s.kernel.openFileTable d))
  | .close =>
    let oft := s.kernel.openFileTable (toInt32 regs.ebx).toNat
    DescriptorInRange oft (toInt32 regs.ebx) (closeUses oft)
  | .read =>
    let oft := s.kernel.openFileTable (toInt32 regs.ebx).toNat
    DescriptorInRange oft (toInt32 regs.ebx) (readUses oft)
  | .seek =>
    let oft := s.kernel.openFileTable (toInt32 regs.ebx).toNat
    DescriptorInRange oft (toInt32 regs.ebx) (seekUses oft (whenceOf regs.edx))

/-- **When a call stays inside the tables**: its number is not negative, a descriptor is below 256
with its inode in the table, and a file that is opened is in `open_inode_table[]` already and finds
a free descriptor. -/
def CallInRange (args : Arguments) (s : System) (regs : Regs) : Prop :=
  toInt32 regs.syscallNum ≥ maxSyscalls ∨
    ∃ handler, handlerOf (toInt32 regs.syscallNum) = some handler ∧ handler.InRange args s regs

/-! ## 4. What a call should do -/

/-- A descriptor outside the table, or whose element is not in use. -/
def InvalidDescriptor (s : System) (fd : Int) : Prop :=
  fd < 0 ∨ (maxOpen : Int) ≤ fd ∨ (s.kernel.openFileTable fd.toNat).refCount = 0

/-- No element for a file: every descriptor is in use, or the inode is not in its table and every
element of that has an id. -/
def TableFull (s : System) (fileInode : Inode) : Prop :=
  (∀ d < maxOpen, ¬ FreeElement (s.kernel.openFileTable d)) ∨
    ∀ i < maxOpen, (s.kernel.openInodeTable i).id ≠ fileInode.id ∧ (s.kernel.openInodeTable i).id ≠ 0

/-- A handler with an invalid descriptor or a full table. -/
def Handler.Invalid (args : Arguments) (s : System) (regs : Regs) : Handler → Prop
  | .test0 | .exit | .sleep | .malloc | .free => False
  | .write => toInt32 regs.ebx ≠ 1 ∧ toInt32 regs.ebx ≠ 2 ∧ InvalidDescriptor s (toInt32 regs.ebx)
  | .open =>
    let fileInode := inodeToOpen args.ext s.kernel args.filepath (u32 regs.ecx)
    fileInode.id ≠ 0 ∧ TableFull s fileInode
  | .close | .read | .seek => InvalidDescriptor s (toInt32 regs.ebx)

/-- A call with an invalid number, or of a handler with an invalid descriptor or a full table. -/
def InvalidCall (args : Arguments) (s : System) (regs : Regs) : Prop :=
  match handlerOf (toInt32 regs.syscallNum) with
  | none => True
  | some handler => handler.Invalid args s regs

/-- A call returns -1 and leaves both tables as they were. -/
def Refused (s : System) (o : Outcome) : Prop :=
  ∃ edx s', o = .returned (-1) edx s' ∧ s'.kernel.openFileTable = s.kernel.openFileTable ∧
    s'.kernel.openInodeTable = s.kernel.openInodeTable

/-- **A call that never indexes outside the tables**, and refuses what is invalid. -/
structure Bounded (args : Arguments) (s : System) (regs : Regs) : Prop where
  inside : ∀ access ∈ accesses args s regs, access.Inside
  refused : InvalidCall args s regs → Refused s (doSyscall args s regs)

/-! ## 5. The accesses of a handler -/

/-- The accesses of a descriptor's handler. -/
theorem descriptor_inside {oft : OpenFile} {fd : Int} {uses : Bool} :
    (∀ access ∈ descriptorAccesses oft fd uses, access.Inside) ↔ DescriptorInRange oft fd uses := by
  unfold descriptorAccesses DescriptorInRange
  by_cases hneg : fd < 0
  · rw [if_pos hneg]
    exact iff_of_true (fun _ h => absurd h List.not_mem_nil) (Or.inl hneg)
  · rw [if_neg hneg, or_iff_right hneg, List.forall_mem_cons]
    refine and_congr ?_ ?_
    · exact and_iff_right (Int.not_lt.mp hneg)
    · cases hinode : oft.inode with
      | none => simp
      | some i =>
        cases uses
        · simp
        · simp [TableAccess.Inside]

/-- The accesses of a search. -/
theorem range_inside {n : Nat} {f : Int → TableAccess}
    (hf : ∀ i, (f i).Inside ↔ 0 ≤ i ∧ i < maxOpen) :
    (∀ access ∈ (List.range (n + 1)).map (fun i => f (i : Nat)), access.Inside) ↔ n < maxOpen := by
  rw [List.forall_mem_map]
  constructor
  · intro h
    have hlast := (hf _).mp (h n (List.mem_range.mpr (Nat.lt_succ_self n)))
    omega
  · intro h i hi
    have hlt := List.mem_range.mp hi
    exact (hf _).mpr (by omega)

/-- The search for a file stops inside the table exactly when it is there. -/
theorem searchInode_lt {table : Nat → Inode} {id : Nat} :
    searchInode table id < maxOpen ↔ ∃ i < maxOpen, (table i).id = id := by
  constructor
  · intro h
    rcases find_range (rfl : searchInode table id = _) with ⟨hlt, hp, -⟩ | ⟨heq, -⟩
    · exact ⟨_, hlt, eq_of_beq hp⟩
    · exact absurd (heq ▸ h) (Nat.lt_irrefl _)
  · exact fun h => (searchInode_found h).1

theorem searchFd_lt {table : Nat → OpenFile} :
    searchFd table < maxOpen ↔ ∃ d < maxOpen, FreeElement (table d) := by
  rcases find_range (rfl : searchFd table = _) with ⟨hlt, hp, -⟩ | ⟨heq, hnone⟩
  · refine iff_of_true hlt ⟨_, hlt, ?_⟩
    simpa [FreeElement] using hp
  · refine iff_of_false (by omega) ?_
    rintro ⟨d, hd, hfree⟩
    have hused := hnone d hd
    simp only [Bool.or_eq_false_iff, beq_eq_false_iff_ne] at hused
    exact hfree.elim hused.1 hused.2

/-- The accesses of `syscall_open`. -/
theorem open_inside {k : Kernel} {fileInode : Inode} :
    (∀ access ∈ openAccesses k fileInode, access.Inside) ↔
      (∃ i < maxOpen, (k.openInodeTable i).id = fileInode.id) ∧
        ∃ d < maxOpen, FreeElement (k.openFileTable d) := by
  unfold openAccesses
  simp only [List.forall_mem_append]
  rw [range_inside (fun i => Iff.rfl), range_inside (f := .openFile) (fun i => Iff.rfl),
    searchInode_lt, searchFd_lt]
  refine and_congr_left fun _ => and_iff_left_of_imp fun hfound access haccess => ?_
  rw [if_pos (searchInode_found hfound).2.symm] at haccess
  exact absurd haccess List.not_mem_nil

/-- Closing a descriptor leaves the elements of the others. -/
theorem openFileTable_close {ext : Ext} {k : Kernel} {fd : Int} {d : Nat} (h : d ≠ fd.toNat) :
    (syscallClose ext k fd).2.openFileTable d = k.openFileTable d := by
  unfold syscallClose
  split
  · rfl
  · simp only []
    split
    · rfl
    · split
      · rfl
      · split
        · exact Function.update_of_ne h _ _
        · exact Function.update_of_ne h _ _

/-- The accesses of `syscall_exit`. -/
theorem exit_inside {args : Arguments} {s : System} {regs : Regs} :
    (∀ access ∈ Handler.exit.accesses args s regs, access.Inside) ↔
      Handler.exit.InRange args s regs := by
  unfold Handler.accesses Handler.InRange
  by_cases hnone : s.processId = 0
  · simp [hnone]
  · have hseven : (TableAccess.syscalls 7).Inside := ⟨by decide, by decide⟩
    simp only [if_neg hnone, or_iff_right hnone, List.forall_mem_append, List.forall_mem_cons]
    unfold closeAccesses
    rw [descriptor_inside, descriptor_inside, descriptor_inside]
    have hone : (syscallClose args.ext s.kernel 0).2.openFileTable (1 : Int).toNat
        = s.kernel.openFileTable 1 := openFileTable_close (by decide)
    have htwo : (syscallClose args.ext (syscallClose args.ext s.kernel 0).2 1).2.openFileTable
        (2 : Int).toNat = s.kernel.openFileTable 2 :=
      (openFileTable_close (by decide)).trans (openFileTable_close (by decide))
    rw [hone, htwo]
    constructor
    · rintro ⟨⟨⟨-, h0⟩, -, h1⟩, -, h2⟩ fd hfd
      match fd, hfd with
      | 0, _ => exact h0
      | 1, _ => exact h1
      | 2, _ => exact h2
    · intro h
      exact ⟨⟨⟨hseven, h 0 (by decide)⟩, hseven, h 1 (by decide)⟩, hseven, h 2 (by decide)⟩

/-- **The accesses of a handler stay inside** exactly under its condition. -/
theorem handler_inside {args : Arguments} {s : System} {regs : Regs} (handler : Handler) :
    (∀ access ∈ handler.accesses args s regs, access.Inside) ↔ handler.InRange args s regs := by
  cases handler with
  | test0 | sleep | malloc | free =>
    exact iff_of_true (fun _ h => absurd h List.not_mem_nil) trivial
  | exit => exact exit_inside
  | write =>
    unfold Handler.accesses Handler.InRange
    simp only []
    split
    · next hterminal =>
      exact iff_of_true (fun _ h => absurd h List.not_mem_nil) (or_assoc.mp (Or.inl hterminal))
    · next hother =>
      rw [descriptor_inside, ← or_assoc, or_iff_right hother]
  | «open» =>
    unfold Handler.accesses Handler.InRange
    simp only []
    split
    · next hnone => exact iff_of_true (fun _ h => absurd h List.not_mem_nil) (Or.inl hnone)
    · next hsome => rw [open_inside, or_iff_right hsome]
  | close => exact descriptor_inside
  | read => exact descriptor_inside
  | seek => exact descriptor_inside

/-! ## 6. Invalid calls -/

/-- An invalid descriptor that is in range is negative, or its element is not in use. -/
theorem invalid_in_range {s : System} {fd : Int} {uses : Bool}
    (hrange : DescriptorInRange (s.kernel.openFileTable fd.toNat) fd uses)
    (h : InvalidDescriptor s fd) : fd < 0 ∨ (s.kernel.openFileTable fd.toNat).refCount = 0 := by
  rcases h with hneg | hhigh | hunused
  · exact Or.inl hneg
  · rcases hrange with hneg | ⟨hlow, -⟩
    · exact Or.inl hneg
    · omega
  · exact Or.inr hunused

theorem syscallClose_invalid {ext : Ext} {k : Kernel} {fd : Int}
    (h : fd < 0 ∨ (k.openFileTable fd.toNat).refCount = 0) :
    syscallClose ext k fd = (-1, k) := by
  unfold syscallClose
  by_cases hneg : fd < 0
  · exact if_pos hneg
  · rw [if_neg hneg]
    simp only []
    split
    · rfl
    · exact if_pos (h.resolve_left hneg)

theorem syscallWrite_invalid {ext : Ext} {k : Kernel} {fd : Int} {buf : Bytes} {len : Nat}
    (hterminal : ¬ (fd = 1 ∨ fd = 2))
    (h : fd < 0 ∨ (k.openFileTable fd.toNat).refCount = 0) :
    syscallWrite ext k fd buf len = (-1, k) := by
  unfold syscallWrite
  by_cases hneg : fd < 0
  · exact if_pos hneg
  · rw [if_neg hneg, if_neg hterminal]
    simp only []
    split
    · rfl
    · exact if_pos (h.resolve_left hneg)

theorem syscallRead_invalid {k : Kernel} {fd : Int} {len : Nat}
    (h : fd < 0 ∨ (k.openFileTable fd.toNat).refCount = 0) :
    syscallRead k fd len = (-1, [], k) := by
  unfold syscallRead
  by_cases hneg : fd < 0
  · exact if_pos hneg
  · rw [if_neg hneg]
    exact if_pos (Or.inr (h.resolve_left hneg))

theorem syscallSeek_invalid {k : Kernel} {fd delta : Int} {whence : Whence}
    (h : fd < 0 ∨ (k.openFileTable fd.toNat).refCount = 0) :
    syscallSeek k fd delta whence = (-1, k) := by
  unfold syscallSeek
  by_cases hneg : fd < 0
  · exact if_pos hneg
  · rw [if_neg hneg]
    refine if_pos ?_
    unfold OpenFile.notOpen
    rw [h.resolve_left hneg, beq_self_eq_true, Bool.or_true]

/-- **An invalid call of a handler is refused** when its accesses stay inside. -/
theorem handler_refused {args : Arguments} {s : System} {regs : Regs} (handler : Handler)
    (hrange : handler.InRange args s regs) (h : handler.Invalid args s regs) :
    Refused s (handler.run args s regs) := by
  cases handler with
  | test0 | sleep | malloc | free | exit => exact absurd h id
  | write =>
    obtain ⟨hone, htwo, hinvalid⟩ := h
    have hrange' := (hrange.resolve_left hone).resolve_left htwo
    have hr := @syscallWrite_invalid args.ext s.kernel _ (slice s.kernel.mem (u32 regs.ecx))
      (u32 regs.edx) (not_or.mpr ⟨hone, htwo⟩) (invalid_in_range hrange' hinvalid)
    unfold Handler.run
    rw [hr]
    exact ⟨_, _, rfl, rfl, rfl⟩
  | «open» =>
    obtain ⟨hid, hfull⟩ := h
    obtain ⟨⟨i, hi, hfound⟩, d, hd, hfree⟩ := hrange.resolve_left hid
    rcases hfull with hused | habsent
    · exact absurd hfree (hused d hd)
    · exact absurd hfound (habsent i hi).1
  | close =>
    have hr := @syscallClose_invalid args.ext s.kernel _ (invalid_in_range hrange h)
    unfold Handler.run
    rw [hr]
    exact ⟨_, _, rfl, rfl, rfl⟩
  | read =>
    have hr := @syscallRead_invalid s.kernel _ (u32 regs.edx) (invalid_in_range hrange h)
    unfold Handler.run
    rw [hr]
    exact ⟨_, _, rfl, rfl, rfl⟩
  | seek =>
    have hr := @syscallSeek_invalid s.kernel _ (toInt32 regs.ecx) (whenceOf regs.edx)
      (invalid_in_range hrange h)
    unfold Handler.run
    rw [hr]
    exact ⟨_, _, rfl, rfl, rfl⟩

/-! ## 7. A call as a whole -/

/-- The numbers below 10 that are not negative are those of the table. -/
theorem handlerOf_some {num : Int} (h : num < maxSyscalls) :
    0 ≤ num ↔ ∃ handler, handlerOf num = some handler := by
  unfold handlerOf
  by_cases hneg : num < 0
  · rw [if_pos hneg]
    exact iff_of_false (by omega) (by simp)
  · rw [if_neg hneg]
    refine iff_of_true (Int.not_lt.mp hneg) ⟨_, List.getElem?_eq_getElem ?_⟩
    have hlength : syscalls.length = 10 := rfl
    unfold maxSyscalls at h
    omega

/-- **System calls never index outside the tables** exactly under the condition. -/
theorem bounded_iff (args : Arguments) (s : System) (regs : Regs) :
    Bounded args s regs ↔ CallInRange args s regs := by
  by_cases hhigh : toInt32 regs.syscallNum ≥ maxSyscalls
  · -- An unknown number is refused without an access.
    refine iff_of_true ⟨fun access h => ?_, fun _ => ?_⟩ (Or.inl hhigh)
    · rw [accesses, if_pos hhigh] at h
      exact absurd h List.not_mem_nil
    · rw [doSyscall, if_pos hhigh]
      exact ⟨_, _, rfl, rfl, rfl⟩
  · have hsome := handlerOf_some (Int.not_le.mp hhigh)
    unfold CallInRange
    rw [or_iff_right hhigh]
    constructor
    · intro h
      have hinside := h.inside
      unfold accesses at hinside
      rw [if_neg hhigh, List.forall_mem_cons] at hinside
      obtain ⟨handler, hhandler⟩ := hsome.mp hinside.1.1
      rw [hhandler] at hinside
      exact ⟨handler, hhandler, (handler_inside handler).mp hinside.2⟩
    · rintro ⟨handler, hhandler, hrange⟩
      refine ⟨?_, fun hinvalid => ?_⟩
      · unfold accesses
        rw [if_neg hhigh, List.forall_mem_cons, hhandler]
        exact ⟨⟨hsome.mpr ⟨handler, hhandler⟩, Int.not_le.mp hhigh⟩,
          (handler_inside handler).mpr hrange⟩
      · unfold InvalidCall at hinvalid
        rw [hhandler] at hinvalid
        unfold doSyscall
        rw [if_neg hhigh, hhandler]
        exact handler_refused handler hrange hinvalid

/-- **A negative call number** reads the word before `syscalls[]`, whatever the state. -/
theorem number_unchecked : ¬ ∀ (args : Arguments) (s : System) (regs : Regs), Booted s.kernel →
    Bounded args s regs := by
  intro hall
  have hinside := (hall ⟨quietExt, rootPath⟩
    ⟨freshKernel Fs.noInode, ⟨fun _ => 0, 0, 0, 0, 0⟩, 0⟩ ⟨0xFFFFFFFF, 0, 0, 0⟩
    (freshKernel_booted _)).inside (.syscalls (-1)) List.mem_cons_self
  exact absurd hinside.1 (by decide)

end AmateurOs.Syscalls
