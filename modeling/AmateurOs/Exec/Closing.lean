/-
# What closing a file gives back

`syscall_open` maps a page for every block of the file and counts it in `pages_allocated`,
`syscall_write` maps more when it begins behind the pages it has counted, the page-fault handler
maps, without counting, the pages that an access finds not present, and `syscall_close` closes as
many pages as the size of the file has then.

* The pages mapped and the pages closed are the same number as long as every write that begins
  behind the counted pages adds no more than the file gets longer, from a size that the counted
  pages hold (`FitsPages`).  Then closing gives back what was taken (`file_closed`).
* A write far behind the end of a small file maps the distance from the old *size*, behind the
  pages that there are, and one of them is never given back (`file_leaks`).

The system calls of `Syscalls.Calls` say what happens to the tables, and the machine follows with
the pages that they map and access, in their order.
-/
import AmateurOs.Exec.Buffers

namespace AmateurOs.Exec

open AmateurOs.Lib
open AmateurOs.Memory
open AmateurOs.Fs (Inode CString)
open AmateurOs.Syscalls (Kernel Ext OpenFile Whence syscallOpen syscallClose syscallRead
  syscallWrite syscallSeek sizeInPages writeOffset addedPages resized bytesRead hasFlag oWronly oRdwr)

/-! ## 1. Pages -/

/-- A page is mapped, or a byte in it is accessed. -/
inductive PageEvent
  | map (virt : Nat)
  | access (virt : Nat)
deriving DecidableEq

/-- An access by the kernel: where the page is not present, the handler maps it. -/
def accessPage (m : Machine) (dir virt : Nat) : Option Machine :=
  if getPhysicalAddress m.memory dir virt % 2 = 1 then some m
  else
    (pageFaultHandler mapFuel m dir virt 0).bind fun
      | .returns m => some m
      | .halts _ => none

/-- The machine after the event. -/
def pageEvent (dir : Nat) (m : Machine) : PageEvent → Option Machine
  | .map virt => mapNewPage m dir virt
  | .access virt => accessPage m dir virt

/-- There are frames for the event, and those for tables are clean. -/
def Supplied (dir : Nat) (m : Machine) : PageEvent → Prop
  | .map virt => Served m dir virt userFlags
  | .access virt => Absent m dir virt → Served m dir virt faultFlags

/-- Events that are all supplied, with stores outside the tables between them. -/
inductive PageRun (dir : Nat) : List PageEvent → Machine → Machine → Prop
  | done {m : Machine} : PageRun dir [] m m
  | event {e : PageEvent} {es : List PageEvent} {m m' m'' : Machine} {memory : Bytes}
      (hsupplied : Supplied dir m e) (hevent : pageEvent dir m e = some m')
      (hstore : SameTables dir m'.memory memory)
      (hrest : PageRun dir es { m' with memory := memory } m'') : PageRun dir (e :: es) m m''

/-- The loop that maps `n` pages. -/
def mapEvents : Nat → Nat → List PageEvent
  | 0, _ => []
  | n + 1, virt => .map virt :: mapEvents n (u32 (virt + pageSize))

/-- Accesses of `n` pages in order. -/
def accessEvents : Nat → Nat → List PageEvent
  | 0, _ => []
  | n + 1, virt => .access virt :: accessEvents n (u32 (virt + pageSize))

/-- The accesses of `len` bytes from `first` on. -/
def accesses (first len : Nat) : List PageEvent :=
  if len = 0 then []
  else accessEvents ((first % pageSize + len + 4095) / pageSize) (first / pageSize * pageSize)

/-! ## 2. The system calls -/

/-- The blocks that `fs_load_file` and `fs_save_file` transfer. -/
def transferredBlocks (inode : Inode) : List Nat → Nat → Nat
  | [], _ => 0
  | i :: is, totalBlocks =>
    if totalBlocks > 0 then inode.extentLength i +
      transferredBlocks inode is (sub32 totalBlocks (inode.extentLength i))
    else 0

/-- The accesses of `fs_load_file` and `fs_save_file`. -/
def transferEvents (directExtents : Nat) (inode : Inode) (address : Nat) : List PageEvent :=
  accesses address (transferredBlocks inode (List.range directExtents)
    (Fs.bytesToBlocks inode.sizeBytes) * pageSize)

/-- The pages of `syscall_open`, which left `k'`: the pages of the file are mapped, and it is
loaded. -/
def openEvents (k k' : Kernel) (fd : Nat) : List PageEvent :=
  let oft := k'.openFileTable fd
  let inode := k'.inodeOf oft
  mapEvents (sizeInPages inode.sizeBytes) k.nextAvailableFileVirtualAddress ++
    transferEvents k'.fs.superblock.directExtentsPerInode inode oft.address

/-- `syscall_write` gets to the file. -/
def Writes (k : Kernel) (fd : Nat) : Prop :=
  fd ≠ 1 ∧ fd ≠ 2 ∧ (k.openFileTable fd).inode ≠ none ∧ (k.openFileTable fd).refCount ≠ 0 ∧
    (hasFlag (k.openFileTable fd).flags oWronly || hasFlag (k.openFileTable fd).flags oRdwr) = true

instance (k : Kernel) (fd : Nat) : Decidable (Writes k fd) := inferInstanceAs (Decidable (_ ∧ _))

/-- The pages of a write: when it begins behind the counted pages, some are added and the gap is
cleared; then the bytes are stored and the file is saved. -/
def writeEvents (k : Kernel) (fd len : Nat) : List PageEvent :=
  let oft := k.openFileTable fd
  let start := writeOffset k oft
  let size := (k.inodeOf oft).sizeBytes
  if Writes k fd then
    (if start > u32 (oft.pagesAllocated * pageSize) then
      mapEvents (addedPages k oft) k.nextAvailableFileVirtualAddress ++
        accesses (u32 (oft.address + size)) (sub32 start size)
    else []) ++
    (accesses (u32 (oft.address + start)) len ++
      transferEvents k.fs.superblock.directExtentsPerInode
        (resized (k.inodeOf oft) (u32 (start + len))) oft.address)
  else []

/-- `syscall_read` gets to the file. -/
def Reads (k : Kernel) (fd : Nat) : Prop :=
  (k.openFileTable fd).address ≠ 0 ∧ (k.openFileTable fd).refCount ≠ 0 ∧
    hasFlag (k.openFileTable fd).flags oWronly = false

instance (k : Kernel) (fd : Nat) : Decidable (Reads k fd) := inferInstanceAs (Decidable (_ ∧ _))

/-- The number of bytes a read copies from the file. -/
def readCount (k : Kernel) (fd len : Nat) : Nat :=
  let oft := k.openFileTable fd
  bytesRead (k.inodeOf oft).sizeBytes oft.offset len

/-- The pages of a read. -/
def readEvents (k : Kernel) (fd len : Nat) : List PageEvent :=
  let oft := k.openFileTable fd
  if Reads k fd then accesses (u32 (oft.address + oft.offset)) (readCount k fd len) else []

/-- What `syscall_close` does to the machine. -/
def closeMachine (dir : Nat) (k : Kernel) (fd : Nat) (m : Machine) : Machine :=
  let oft := k.openFileTable fd
  match oft.inode with
  | none => m
  | some i =>
    if oft.refCount = 0 then m
    else if sub32 oft.refCount 1 = 0 then
      closePages dir (sizeInPages (k.openInodeTable i).sizeBytes) m oft.address
    else m

/-- The kernel and the machine. -/
structure FileSession where
  kernel : Kernel
  machine : Machine

/-- The calls between `open` and `close`. -/
inductive FileCall
  | seek (delta : Int) (whence : Whence)
  | read (len : Nat)
  | write (ext : Ext) (buf : Bytes) (len : Nat)

/-- The session after a call on the descriptor. -/
inductive FileStep (dir fd : Nat) : FileSession → FileCall → FileSession → Prop
  | seek {s : FileSession} {delta : Int} {whence : Whence} :
      FileStep dir fd s (.seek delta whence)
        { s with kernel := (syscallSeek s.kernel fd delta whence).2 }
  | read {s : FileSession} {len : Nat} {m : Machine}
      (hpages : PageRun dir (readEvents s.kernel fd len) s.machine m) :
      FileStep dir fd s (.read len) ⟨(syscallRead s.kernel fd len).2.2, m⟩
  | write {s : FileSession} {ext : Ext} {buf : Bytes} {len : Nat} {m : Machine}
      (hpages : PageRun dir (writeEvents s.kernel fd len) s.machine m) :
      FileStep dir fd s (.write ext buf len) ⟨(syscallWrite ext s.kernel fd buf len).2, m⟩

/-- The session after `open` returned the descriptor. -/
inductive OpenStep (dir fd : Nat) (ext : Ext) (filepath : CString) (flags : Nat) :
    FileSession → FileSession → Prop
  | opened {s : FileSession} {k : Kernel} {m : Machine}
      (hret : syscallOpen ext s.kernel filepath flags = ((fd : Int), k))
      (hpages : PageRun dir (openEvents s.kernel k fd) s.machine m) :
      OpenStep dir fd ext filepath flags s ⟨k, m⟩

/-- The session after `close`. -/
def closeFile (dir fd : Nat) (ext : Ext) (s : FileSession) : FileSession :=
  ⟨(syscallClose ext s.kernel fd).2, closeMachine dir s.kernel fd s.machine⟩

/-! ## 3. The pages of a buffer -/

theorem PageRun.split {dir : Nat} {es es' : List PageEvent} : ∀ {m m'' : Machine},
    PageRun dir (es ++ es') m m'' → ∃ m', PageRun dir es m m' ∧ PageRun dir es' m' m'' := by
  induction es with
  | nil => exact fun h => ⟨_, .done, h⟩
  | cons e es ih =>
    intro m m'' h
    cases h with
    | event hsupplied hevent hstore hrest =>
      obtain ⟨m', hfirst, hsecond⟩ := ih hrest
      exact ⟨m', .event hsupplied hevent hstore hfirst, hsecond⟩

/-- One more event, with no store behind it. -/
theorem PageRun.cons {dir : Nat} {e : PageEvent} {es : List PageEvent} {m m' m'' : Machine}
    (hsupplied : Supplied dir m e) (hevent : pageEvent dir m e = some m')
    (hrest : PageRun dir es m' m'') : PageRun dir (e :: es) m m'' :=
  .event hsupplied hevent (fun _ _ => rfl) hrest

/-- Accesses of pages that are present. -/
theorem PageRun.accesses {dir : Nat} {m : Machine} : ∀ {es : List PageEvent},
    (∀ e ∈ es, ∃ virt, e = .access virt ∧ getPhysicalAddress m.memory dir virt % 2 = 1) →
    PageRun dir es m m := by
  intro es
  induction es with
  | nil => exact fun _ => .done
  | cons e es ih =>
    intro h
    obtain ⟨virt, rfl, hpresent⟩ := h e List.mem_cons_self
    refine .cons (fun habsent => ?_) (if_pos hpresent)
      (ih fun e he => h e (List.mem_cons_of_mem _ he))
    exact absurd (hpresent.symm.trans habsent) (by decide)

section Buffers

variable {dir top address : Nat} {m₀ : Machine} (hdir : IsDirectory dir)

include hdir

/-- **A page more is mapped** by a call of `map_address` that is served. -/
theorem Buffered.mapped {n flags : Nat} {m : Machine} {r : Bool × Machine} (hflags : flags < 4096)
    (hodd : flags % 2 = 1) (h : Buffered dir top m₀ address n m)
    (hfits : address + 4096 * (n + 1) ≤ top)
    (hserved : Served m dir (address + 4096 * n) flags)
    (hmap : mapAddress mapFuel (withFrame m) dir (allocateBlocks m.manager 1).1
      (address + 4096 * n) flags = some r) : Buffered dir top m₀ address (n + 1) r.2 := by
  have hlow := Nat.lt_of_le_of_lt h.fits h.top_lt
  exact h.grow hflags hodd hfits (pageMapped hdir hflags hlow h.tabled hserved hmap)

/-- The loop that maps pages. -/
theorem Buffered.mapEvents : ∀ (k n : Nat) {m m' : Machine}, Buffered dir top m₀ address n m →
    address + 4096 * (n + k) ≤ top →
    PageRun dir (mapEvents k (address + 4096 * n)) m m' →
    Buffered dir top m₀ address (n + k) m' := by
  intro k
  induction k with
  | zero =>
    intro n m m' h _ hrun
    cases hrun
    exact h
  | succ k ih =>
    intro n m m' h hfits hrun
    have hcount : n + (k + 1) = n + 1 + k := Nat.add_right_comm n k 1
    rw [hcount] at hfits ⊢
    have hle : address + 4096 * (n + 1) ≤ address + 4096 * (n + 1 + k) :=
      Nat.add_le_add_left (Nat.mul_le_mul_left 4096 (Nat.le_add_right _ k)) address
    have hone := hle.trans hfits
    have hnext : u32 (address + 4096 * n + pageSize) = address + 4096 * (n + 1) := by
      have heq : address + 4096 * n + pageSize = address + 4096 * (n + 1) := by
        unfold pageSize
        omega
      rw [heq]
      exact u32_eq (Nat.lt_of_le_of_lt hone h.top_lt)
    unfold Exec.mapEvents at hrun
    rw [hnext] at hrun
    cases hrun with
    | event hsupplied hevent hstore hrest =>
      obtain ⟨r, hmap, rfl⟩ := Option.map_eq_some_iff.mp hevent
      have hmapped : Buffered dir top m₀ address (n + 1) r.2 :=
        h.mapped hdir (by decide) (by decide) hone hsupplied hmap
      have hmore := hmapped.store hdir hstore
      exact ih (n + 1) hmore hfits hrest

omit hdir in
/-- A page of the buffer is present. -/
theorem Buffered.present {n i : Nat} {m : Machine} (h : Buffered dir top m₀ address n m)
    (hi : i < n) : getPhysicalAddress m.memory dir (address + 4096 * i) % 2 = 1 := by
  obtain ⟨frame, hframes⟩ := h.frames
  obtain ⟨flags, hflags, hodd, htrans⟩ := hframes.mapped i hi
  have haligned := hframes.aligned i hi
  rw [htrans, or_flags haligned hflags]
  omega

/-- The accesses of pages in order: those behind the buffer are faulted in. -/
theorem Buffered.accessEvents : ∀ (k n i : Nat) {m m' : Machine}, Buffered dir top m₀ address n m →
    i ≤ n → address + 4096 * max n (i + k) ≤ top →
    PageRun dir (accessEvents k (address + 4096 * i)) m m' →
    Buffered dir top m₀ address (max n (i + k)) m' := by
  intro k
  induction k with
  | zero =>
    intro n i m m' h hi _ hrun
    cases hrun
    rwa [Nat.add_zero, Nat.max_eq_left hi]
  | succ k ih =>
    intro n i m m' h hi hfits hrun
    have hle : address + 4096 * (i + 1) ≤ address + 4096 * max n (i + (k + 1)) := by omega
    have hone := hle.trans hfits
    have hnext : u32 (address + 4096 * i + pageSize) = address + 4096 * (i + 1) := by
      have heq : address + 4096 * i + pageSize = address + 4096 * (i + 1) := by
        unfold pageSize
        omega
      rw [heq]
      exact u32_eq (Nat.lt_of_le_of_lt hone h.top_lt)
    have hcount : i + (k + 1) = i + 1 + k := by omega
    unfold Exec.accessEvents at hrun
    rw [hnext] at hrun
    rw [hcount] at hfits ⊢
    cases hrun with
    | event hsupplied hevent hstore hrest =>
      by_cases hin : i < n
      · -- The page is there.
        have hpresent := h.present hin
        unfold pageEvent accessPage at hevent
        simp only [if_pos hpresent] at hevent
        obtain rfl := Option.some.inj hevent
        exact ih n (i + 1) (h.store hdir hstore) hin hfits hrest
      · obtain rfl : i = n := Nat.le_antisymm hi (Nat.not_lt.mp hin)
        have hin' : address + 4096 * i < top := by omega
        have habsent := h.absent (address + 4096 * i) (Nat.le_refl _) hin'
        have hnot : ¬ getPhysicalAddress m.memory dir (address + 4096 * i) % 2 = 1 := by
          unfold Absent at habsent
          omega
        unfold pageEvent accessPage at hevent
        simp only [if_neg hnot] at hevent
        obtain ⟨outcome, hhandler, hreturned⟩ := Option.bind_eq_some_iff.mp hevent
        cases outcome with
        | halts => exact nomatch hreturned
        | returns =>
          obtain rfl := Option.some.inj hreturned
          obtain ⟨-, hmap⟩ := pageFaultHandler_returns.mp hhandler
          have hmore := (h.mapped hdir (by decide) (by decide) hone (hsupplied habsent) hmap).store
            hdir hstore
          have hmax : max i (i + 1 + k) = max (i + 1) (i + 1 + k) := by omega
          rw [hmax] at hfits ⊢
          exact ih (i + 1) (i + 1) hmore (Nat.le_refl _) hfits hrest

/-- **Accesses of bytes** that begin in the buffer or right behind it. -/
theorem Buffered.accesses {n first len : Nat} {m m' : Machine} (h : Buffered dir top m₀ address n m)
    (hfirst : first ≤ 4096 * n)
    (hfits : len ≠ 0 → address + 4096 * Fs.bytesToBlocks (first + len) ≤ top)
    (hrun : PageRun dir (accesses (u32 (address + first)) len) m m') :
    Buffered dir top m₀ address
      (if len = 0 then n else max n (Fs.bytesToBlocks (first + len))) m' := by
  by_cases hlen : len = 0
  · rw [if_pos hlen]
    unfold Exec.accesses at hrun
    rw [if_pos hlen] at hrun
    cases hrun
    exact h
  · rw [if_neg hlen]
    have haligned := h.aligned
    have hlow := h.fits
    have htop := h.top_lt
    have hend := hfits hlen
    rw [Fs.bytesToBlocks_eq] at hend ⊢
    have hat : u32 (address + first) = address + first := u32_eq (by omega)
    have hpage : (address + first) / 4096 * 4096 = address + 4096 * (first / 4096) := by omega
    have hcount : first / 4096 + ((address + first) % 4096 + len + 4095) / 4096
        = (first + len + 4095) / 4096 := by omega
    unfold Exec.accesses pageSize at hrun
    rw [if_neg hlen, hat, hpage] at hrun
    have hmax : address + 4096 * max n ((first + len + 4095) / 4096) ≤ top := by
      rcases Nat.le_total n ((first + len + 4095) / 4096) with hle | hle
      · rwa [Nat.max_eq_right hle]
      · rwa [Nat.max_eq_left hle]
    have hall := Buffered.accessEvents hdir _ n (first / 4096) h (by omega) (hcount.symm ▸ hmax)
      hrun
    rwa [hcount] at hall

end Buffers

/-! ## 4. The file of a descriptor -/

theorem sizeInPages_eq (bytes : Nat) : sizeInPages bytes = max 1 ((bytes + 4095) / 4096) := by
  unfold sizeInPages
  rw [Fs.bytesToBlocks_eq]
  split <;> omega

/-- The blocks of all direct extents. -/
def extentBlocks (directExtents : Nat) (inode : Inode) : Nat :=
  ((List.range directExtents).map inode.extentLength).sum

theorem transferredBlocks_le (inode : Inode) : ∀ (is : List Nat) (totalBlocks : Nat),
    transferredBlocks inode is totalBlocks ≤ (is.map inode.extentLength).sum := by
  intro is
  induction is with
  | nil => exact fun _ => Nat.le_refl _
  | cons i is ih =>
    intro totalBlocks
    unfold transferredBlocks
    rw [List.map_cons, List.sum_cons]
    split
    · exact Nat.add_le_add_left (ih _) _
    · exact Nat.zero_le _

/-- Loading or saving a file whose extents are no longer than its pages. -/
theorem Buffered.transfer {dir top address n direct : Nat} {m₀ m m' : Machine} {inode : Inode}
    (hdir : IsDirectory dir) (h : Buffered dir top m₀ address n m)
    (hextents : extentBlocks direct inode ≤ n)
    (hrun : PageRun dir (transferEvents direct inode address) m m') :
    Buffered dir top m₀ address n m' := by
  have hle := (transferredBlocks_le inode (List.range direct)
    (Fs.bytesToBlocks inode.sizeBytes)).trans hextents
  have hfits := h.fits
  have htop := h.top_lt
  unfold transferEvents pageSize at hrun
  generalize transferredBlocks inode (List.range direct) (Fs.bytesToBlocks inode.sizeBytes) = blocks
    at hle hrun
  have hat : u32 (address + 0) = address := u32_eq (by omega)
  rw [← hat] at hrun
  have hblocks : Fs.bytesToBlocks (0 + blocks * 4096) = blocks := by
    rw [Fs.bytesToBlocks_eq]
    omega
  have hall := h.accesses hdir (Nat.zero_le _) (fun _ => by rw [hblocks]; omega) hrun
  rw [hblocks, Nat.max_eq_left hle, ite_self] at hall
  exact hall

/-- The descriptor `fd` has the inode `i` and its buffer, which holds the file; no page was
mapped behind the buffer, and the extents of the file are no longer than its pages. -/
structure FileOpen (dir top fd i : Nat) (m₀ : Machine) (address : Nat) (s : FileSession) :
    Prop where
  index : (s.kernel.openFileTable fd).inode = some i
  refCount : (s.kernel.openFileTable fd).refCount = 1
  address_eq : (s.kernel.openFileTable fd).address = address
  offset_lt : (s.kernel.openFileTable fd).offset < 4294967296
  some_pages : 0 < (s.kernel.openFileTable fd).pagesAllocated
  counted : (s.kernel.openFileTable fd).pagesAllocated ≤
    sizeInPages (s.kernel.openInodeTable i).sizeBytes
  next : s.kernel.nextAvailableFileVirtualAddress =
    address + 4096 * (s.kernel.openFileTable fd).pagesAllocated
  buffered : Buffered dir top m₀ address (sizeInPages (s.kernel.openInodeTable i).sizeBytes)
    s.machine
  extents : extentBlocks s.kernel.fs.superblock.directExtentsPerInode (s.kernel.openInodeTable i) ≤
    sizeInPages (s.kernel.openInodeTable i).sizeBytes

theorem inodeOf_eq {k : Kernel} {oft : OpenFile} {i : Nat} (h : oft.inode = some i) :
    k.inodeOf oft = k.openInodeTable i := by
  unfold Kernel.inodeOf
  rw [h]

/-- A seek moves the offset. -/
theorem FileOpen.seek {dir top fd i address : Nat} {m₀ : Machine} {s : FileSession}
    (h : FileOpen dir top fd i m₀ address s) (delta : Int) (whence : Whence) :
    FileOpen dir top fd i m₀ address
      { s with kernel := (syscallSeek s.kernel fd delta whence).2 } := by
  have hopen : (s.kernel.openFileTable fd).notOpen = false := by
    unfold OpenFile.notOpen
    rw [h.index, h.refCount]
    rfl
  have hkernel : (syscallSeek s.kernel fd delta whence).2 = { s.kernel with
      openFileTable := Function.update s.kernel.openFileTable fd
        { s.kernel.openFileTable fd with
          offset := (Syscalls.seekResult (s.kernel.inodeOf (s.kernel.openFileTable fd)).sizeBytes
            (s.kernel.openFileTable fd).offset delta whence).2 } } := by
    have hnonneg : ¬ (fd : Int) < 0 := by omega
    unfold syscallSeek
    simp only [if_neg hnonneg, Int.toNat_natCast, hopen, Bool.false_eq_true, if_false]
  have hoffset : (Syscalls.seekResult (s.kernel.inodeOf (s.kernel.openFileTable fd)).sizeBytes
      (s.kernel.openFileTable fd).offset delta whence).2 < 4294967296 := by
    have hlt := h.offset_lt
    unfold Syscalls.seekResult
    cases whence <;> simp only []
    · split
      · decide
      · unfold ofInt32
        omega
    · split
      · decide
      · exact u32_lt _
    · split
      · decide
      · exact u32_lt _
    · exact hlt
  rw [hkernel]
  constructor <;> simp only [Function.update_self]
  · exact h.index
  · exact h.refCount
  · exact h.address_eq
  · exact hoffset
  · exact h.some_pages
  · exact h.counted
  · exact h.next
  · exact h.buffered
  · exact h.extents

/-- The bytes that a read copies end in the pages of the file. -/
def FitsRead (k : Kernel) (fd len : Nat) : Prop :=
  readCount k fd len ≠ 0 → (k.openFileTable fd).offset + readCount k fd len ≤
    4096 * sizeInPages (k.inodeOf (k.openFileTable fd)).sizeBytes

/-- The kernel after a read. -/
theorem syscallRead_kernel (k : Kernel) (fd len : Nat) : (syscallRead k fd len).2.2 =
    if Reads k fd then
      { k with
        openFileTable := Function.update k.openFileTable fd
          { k.openFileTable fd with
            offset := u32 ((k.openFileTable fd).offset + readCount k fd len) } }
    else k := by
  have hnonneg : ¬ (fd : Int) < 0 := by omega
  unfold syscallRead
  simp only [if_neg hnonneg, Int.toNat_natCast]
  by_cases hclosed : (k.openFileTable fd).address = 0 ∨ (k.openFileTable fd).refCount = 0
  · have hnot : ¬ Reads k fd := fun h => hclosed.elim h.1 h.2.1
    rw [if_pos hclosed, if_neg hnot]
  · obtain ⟨haddress, hcount⟩ := not_or.mp hclosed
    rw [if_neg hclosed]
    cases hflag : hasFlag (k.openFileTable fd).flags oWronly
    · have hreads : Reads k fd := ⟨haddress, hcount, hflag⟩
      rw [if_neg Bool.false_ne_true, if_pos hreads]
      rfl
    · have hnot : ¬ Reads k fd := fun h => absurd (hflag.symm.trans h.2.2) (by decide)
      rw [if_pos rfl, if_neg hnot]

/-- **A read** that stays in the pages of the file maps nothing. -/
theorem FileOpen.read {dir top fd i address len : Nat} {m₀ m : Machine} {s : FileSession}
    (hdir : IsDirectory dir) (h : FileOpen dir top fd i m₀ address s)
    (hok : Reads s.kernel fd → FitsRead s.kernel fd len)
    (hrun : PageRun dir (readEvents s.kernel fd len) s.machine m) :
    FileOpen dir top fd i m₀ address ⟨(syscallRead s.kernel fd len).2.2, m⟩ := by
  rw [syscallRead_kernel]
  unfold readEvents at hrun
  by_cases hreads : Reads s.kernel fd
  swap
  · rw [if_neg hreads] at hrun
    cases hrun
    rw [if_neg hreads]
    exact h
  rw [if_pos hreads, h.address_eq] at hrun
  rw [if_pos hreads]
  have hfits := h.buffered.fits
  have hin := hok hreads
  unfold FitsRead at hin
  rw [inodeOf_eq h.index] at hin
  generalize readCount s.kernel fd len = count at hin hrun
  have hbuffered : Buffered dir top m₀ address
      (sizeInPages (s.kernel.openInodeTable i).sizeBytes) m := by
    by_cases hcount : count = 0
    · unfold accesses at hrun
      rw [if_pos hcount] at hrun
      cases hrun
      exact h.buffered
    · have hend := hin hcount
      have hblocks : Fs.bytesToBlocks ((s.kernel.openFileTable fd).offset + count) ≤
          sizeInPages (s.kernel.openInodeTable i).sizeBytes := by
        rw [Fs.bytesToBlocks_eq]
        omega
      have hall := h.buffered.accesses hdir (Nat.le_of_add_right_le hend) (fun _ =>
        (Nat.add_le_add_left (Nat.mul_le_mul_left 4096 hblocks) address).trans hfits) hrun
      rwa [if_neg hcount, Nat.max_eq_left hblocks] at hall
  constructor <;> simp only [Function.update_self]
  · exact h.index
  · exact h.refCount
  · exact h.address_eq
  · exact u32_lt _
  · exact h.some_pages
  · exact h.counted
  · exact h.next
  · exact hbuffered
  · exact h.extents

/-- **What a write may do**: the file ends below `top`, and when the write begins behind the counted
pages, these hold the file, and the pages that are added are no more than the file gets longer. -/
structure FitsWrite (top : Nat) (k : Kernel) (fd len : Nat) : Prop where
  space : (k.openFileTable fd).address + 4096 *
    sizeInPages (writeOffset k (k.openFileTable fd) + len) ≤ top
  pages : 4096 * (k.openFileTable fd).pagesAllocated < writeOffset k (k.openFileTable fd) →
    (k.inodeOf (k.openFileTable fd)).sizeBytes ≤ 4096 * (k.openFileTable fd).pagesAllocated ∧
    (k.openFileTable fd).pagesAllocated +
        sizeInPages (writeOffset k (k.openFileTable fd) -
          (k.inodeOf (k.openFileTable fd)).sizeBytes) ≤
      sizeInPages (writeOffset k (k.openFileTable fd) + len)

theorem sizeBytes_lt (inode : Inode) : inode.sizeBytes < 4294967296 := le32_lt _ _

theorem resized_sizeBytes (inode : Inode) {offset : Nat} (h : offset < 4294967296) :
    (resized inode offset).sizeBytes = max inode.sizeBytes offset := by
  unfold resized
  split
  · rw [Fs.Inode.sizeBytes_setSizeSectors, Fs.Inode.sizeBytes_setSizeBytes, u32_eq h]
    omega
  · omega

theorem resized_extents (inode : Inode) (offset direct : Nat) :
    extentBlocks direct (resized inode offset) = extentBlocks direct inode := by
  have hlength : ∀ k, (resized inode offset).extentLength k = inode.extentLength k := by
    intro k
    unfold resized
    split
    · have hsectors : ((inode.setSizeBytes offset).setSizeSectors
          (Fs.bytesToSectors offset)).extentLength k = (inode.setSizeBytes offset).extentLength k :=
        (Packed.same_set32 (Or.inl (by omega))).get32
      rw [hsectors]
      exact (Packed.same_set32 (Or.inl (by omega))).get32
    · rfl
  unfold extentBlocks
  rw [List.map_congr_left fun k _ => hlength k]

/-- The kernel after a write. -/
theorem syscallWrite_kernel {ext : Ext} {k : Kernel} {fd i : Nat} {buf : Bytes} {len : Nat}
    (hindex : (k.openFileTable fd).inode = some i) : (syscallWrite ext k fd buf len).2 =
    if Writes k fd then Syscalls.writeFile ext k fd i buf len else k := by
  have hnonneg : ¬ (fd : Int) < 0 := by omega
  unfold syscallWrite
  rw [if_neg hnonneg]
  by_cases hterminal : (fd : Int) = 1 ∨ (fd : Int) = 2
  · have hnot : ¬ Writes k fd := fun h => by
      have hne := h.1
      have hne' := h.2.1
      omega
    rw [if_pos hterminal, if_neg hnot]
  · rw [if_neg hterminal]
    simp only [Int.toNat_natCast, hindex]
    by_cases hclosed : (k.openFileTable fd).refCount = 0
    · have hnot : ¬ Writes k fd := fun h => h.2.2.2.1 hclosed
      rw [if_pos hclosed, if_neg hnot]
    · rw [if_neg hclosed]
      cases hflag : hasFlag (k.openFileTable fd).flags oWronly ||
          hasFlag (k.openFileTable fd).flags oRdwr
      · have hnot : ¬ Writes k fd := fun h => absurd (hflag.symm.trans h.2.2.2.2) (by decide)
        rw [← Bool.not_or, hflag, Bool.not_false, if_pos rfl, if_neg hnot]
      · have hwrites : Writes k fd := by
          refine ⟨by omega, by omega, ?_, hclosed, hflag⟩
          rw [hindex]
          exact Option.some_ne_none i
        rw [← Bool.not_or, hflag, Bool.not_true, if_neg Bool.false_ne_true, if_pos hwrites]

/-- The pages after the bytes of a write were accessed, when `n` pages are there that hold the old
file and no more than the new one has. -/
theorem pages_after {size start len n : Nat} (hstart : start ≤ 4096 * n)
    (hold : sizeInPages size ≤ n) (hnew : n ≤ sizeInPages (max size (start + len))) :
    (if len = 0 then n else max n (Fs.bytesToBlocks (start + len)))
      = sizeInPages (max size (start + len)) := by
  rw [sizeInPages_eq] at hold hnew ⊢
  rw [Fs.bytesToBlocks_eq]
  split <;> omega

/-- **Pages are added** behind the counted ones, which hold the file, and the gap from the end of
the file to the write is cleared. -/
theorem Buffered.added {dir top address counted size start : Nat} {m₀ m m' : Machine}
    (hdir : IsDirectory dir) (h : Buffered dir top m₀ address counted m)
    (hholds : size ≤ 4096 * counted) (hbehind : 4096 * counted < start) (hlt : start < 4294967296)
    (hspace : address + 4096 * (counted + sizeInPages (start - size)) ≤ top)
    (hrun : PageRun dir
      (Exec.mapEvents (sizeInPages (sub32 start size)) (address + 4096 * counted) ++
        Exec.accesses (u32 (address + size)) (sub32 start size)) m m') :
    Buffered dir top m₀ address (counted + sizeInPages (start - size)) m' ∧
      start ≤ 4096 * (counted + sizeInPages (start - size)) := by
  have hgap : sub32 start size = start - size := sub32_eq hlt (by omega)
  have hreach : start ≤ 4096 * (counted + sizeInPages (start - size)) := by
    rw [sizeInPages_eq]
    omega
  refine ⟨?_, hreach⟩
  rw [hgap] at hrun
  generalize sizeInPages (start - size) = added at *
  obtain ⟨m₁, hmap, hclear⟩ := hrun.split
  have hmapped := h.mapEvents hdir added counted hspace hmap
  have hto : size + (start - size) = start := by omega
  have hblocks : Fs.bytesToBlocks start ≤ counted + added := by
    rw [Fs.bytesToBlocks_eq]
    omega
  have hcleared := hmapped.accesses hdir (by omega) (fun _ => by
    rw [hto]
    exact (Nat.add_le_add_left (Nat.mul_le_mul_left 4096 hblocks) address).trans hspace) hclear
  rwa [hto, Nat.max_eq_left hblocks, ite_self] at hcleared

/-- **The pages of a write**: those that it adds and those that are faulted in are the pages of the
new size. -/
theorem FileOpen.write_pages {dir top fd i address len : Nat} {m₀ m : Machine} {s : FileSession}
    (hdir : IsDirectory dir) (h : FileOpen dir top fd i m₀ address s) (hwrites : Writes s.kernel fd)
    (hok : FitsWrite top s.kernel fd len)
    (hrun : PageRun dir (writeEvents s.kernel fd len) s.machine m)
    {size : Nat} (hsize : size = max (s.kernel.openInodeTable i).sizeBytes
      (writeOffset s.kernel (s.kernel.openFileTable fd) + len)) :
    Buffered dir top m₀ address (sizeInPages size) m ∧
    (s.kernel.openFileTable fd).pagesAllocated +
      addedPages s.kernel (s.kernel.openFileTable fd) ≤ sizeInPages size := by
  have hcounted := h.counted
  have hsome := h.some_pages
  have hfits := h.buffered.fits
  have htop := h.buffered.top_lt
  have hspace := hok.space
  have hpages := hok.pages
  have hextents := h.extents
  have hbuffered := h.buffered
  have hnext := h.next
  have hsizelt := sizeBytes_lt (s.kernel.openInodeTable i)
  rw [h.address_eq] at hspace
  rw [inodeOf_eq h.index] at hpages
  unfold writeEvents at hrun
  simp only [if_pos hwrites, h.address_eq, inodeOf_eq h.index] at hrun
  unfold addedPages at hrun ⊢
  rw [inodeOf_eq h.index] at hrun ⊢
  subst hsize
  generalize (s.kernel.openFileTable fd).pagesAllocated = counted at *
  generalize writeOffset s.kernel (s.kernel.openFileTable fd) = start at *
  generalize hinode : s.kernel.openInodeTable i = inode at *
  generalize s.kernel.nextAvailableFileVirtualAddress = next at *
  generalize s.kernel.fs.superblock.directExtentsPerInode = direct at *
  have hcount : u32 (counted * Syscalls.pageSize) = 4096 * counted := by
    unfold Syscalls.pageSize
    rw [Nat.mul_comm]
    exact u32_eq (by omega)
  have hlast : start + len < 4294967296 := by
    rw [sizeInPages_eq] at hspace
    omega
  have hcount' : u32 (counted * pageSize) = 4096 * counted := hcount
  rw [hcount', hcount] at hrun
  rw [hcount]
  obtain ⟨m₁, hadd, hrest⟩ := hrun.split
  obtain ⟨m₂, hdata, hsave⟩ := hrest.split
  have hnewSize := resized_sizeBytes inode hlast
  rw [u32_eq hlast] at hsave
  -- The pages before the bytes are stored.
  have hready : ∃ n, Buffered dir top m₀ address n m₁ ∧ start ≤ 4096 * n ∧
      sizeInPages inode.sizeBytes ≤ n ∧ n ≤ sizeInPages (max inode.sizeBytes (start + len)) ∧
      counted + (if start > 4096 * counted then sizeInPages (sub32 start inode.sizeBytes) else 0)
        ≤ n := by
    by_cases hbehind : start > 4096 * counted
    · obtain ⟨hholds, hgrows⟩ := hpages hbehind
      have hgap : sub32 start inode.sizeBytes = start - inode.sizeBytes :=
        sub32_eq (by omega) (by omega)
      have hall : sizeInPages inode.sizeBytes = counted := by
        rw [sizeInPages_eq] at hcounted ⊢
        omega
      rw [if_pos hbehind, if_pos hbehind, hnext] at hadd
      rw [if_pos hbehind, hgap]
      rw [hall] at hbuffered ⊢
      have hlarge :
          sizeInPages (start + len) ≤ sizeInPages (max inode.sizeBytes (start + len)) := by
        rw [sizeInPages_eq, sizeInPages_eq]
        omega
      have hfar : address + 4096 * (counted + sizeInPages (start - inode.sizeBytes)) ≤ top :=
        (Nat.add_le_add_left (Nat.mul_le_mul_left 4096 hgrows) address).trans hspace
      obtain ⟨hcleared, hreach⟩ := hbuffered.added hdir hholds hbehind
        (Nat.lt_of_le_of_lt (Nat.le_add_right _ _) hlast) hfar hadd
      exact ⟨_, hcleared, hreach, Nat.le_add_right _ _, hgrows.trans hlarge, Nat.le_refl _⟩
    · rw [if_neg hbehind] at hadd ⊢
      cases hadd
      refine ⟨_, hbuffered, by omega, Nat.le_refl _, ?_, by omega⟩
      rw [sizeInPages_eq, sizeInPages_eq]
      omega
  obtain ⟨n, hn, hstart, hold, hnew, hle⟩ := hready
  refine ⟨?_, hle.trans hnew⟩
  have hstored := hn.accesses hdir hstart (fun _ => ?_) hdata
  · rw [pages_after hstart hold hnew] at hstored
    refine hstored.transfer hdir ?_ hsave
    rw [resized_extents]
    exact hextents.trans (hold.trans hnew)
  · rw [sizeInPages_eq] at hspace
    rw [Fs.bytesToBlocks_eq]
    omega

/-- **A write** that fits keeps the pages of the file and the pages of its size the same. -/
theorem FileOpen.write {dir top fd i address : Nat} {m₀ m : Machine} {s : FileSession} {ext : Ext}
    {buf : Bytes} {len : Nat} (hdir : IsDirectory dir) (h : FileOpen dir top fd i m₀ address s)
    (hok : Writes s.kernel fd → FitsWrite top s.kernel fd len)
    (hrun : PageRun dir (writeEvents s.kernel fd len) s.machine m) :
    FileOpen dir top fd i m₀ address ⟨(syscallWrite ext s.kernel fd buf len).2, m⟩ := by
  rw [syscallWrite_kernel h.index]
  by_cases hwrites : Writes s.kernel fd
  swap
  · unfold writeEvents at hrun
    simp only [if_neg hwrites] at hrun
    cases hrun
    rw [if_neg hwrites]
    exact h
  rw [if_pos hwrites]
  have hfits := hok hwrites
  have hspace := hfits.space
  have htop := h.buffered.top_lt
  have hlast : writeOffset s.kernel (s.kernel.openFileTable fd) + len < 4294967296 := by
    rw [sizeInPages_eq] at hspace
    omega
  obtain ⟨hbuffered, hcounted⟩ := h.write_pages hdir hwrites hfits hrun
    (resized_sizeBytes (s.kernel.openInodeTable i) hlast)
  have hend := hbuffered.fits
  have hnext := h.next
  have hsome := h.some_pages
  have hextents := h.extents
  have hless : sizeInPages (s.kernel.openInodeTable i).sizeBytes ≤ sizeInPages (resized
      (s.kernel.openInodeTable i)
      (writeOffset s.kernel (s.kernel.openFileTable fd) + len)).sizeBytes := by
    rw [resized_sizeBytes _ hlast, sizeInPages_eq, sizeInPages_eq]
    omega
  have hpages : u32 ((s.kernel.openFileTable fd).pagesAllocated +
        addedPages s.kernel (s.kernel.openFileTable fd)) =
      (s.kernel.openFileTable fd).pagesAllocated +
        addedPages s.kernel (s.kernel.openFileTable fd) := u32_eq (by omega)
  unfold Syscalls.writeFile
  constructor <;> simp only [Function.update_self, u32_eq hlast, hpages]
  · exact h.index
  · exact h.refCount
  · exact h.address_eq
  · exact hlast
  · exact Nat.add_pos_left hsome _
  · exact hcounted
  · rw [hnext]
    unfold Syscalls.pageSize
    have hsum : address + 4096 * (s.kernel.openFileTable fd).pagesAllocated +
        addedPages s.kernel (s.kernel.openFileTable fd) * 4096 =
        address + 4096 * ((s.kernel.openFileTable fd).pagesAllocated +
          addedPages s.kernel (s.kernel.openFileTable fd)) := by omega
    rw [hsum]
    exact u32_eq (by omega)
  · exact hbuffered
  · rw [resized_extents]
    exact hextents.trans hless

/-! ## 5. The run -/

/-- No file is open, and from the address of the next buffer to `top` no page is mapped. -/
structure NothingOpen (dir top : Nat) (s : FileSession) : Prop where
  files : ∀ fd, s.kernel.openFileTable fd = OpenFile.zero
  inodes : ∀ i, s.kernel.openInodeTable i = Fs.noInode
  tabled : Tabled s.machine dir
  aligned : s.kernel.nextAvailableFileVirtualAddress % 4096 = 0
  address : s.kernel.nextAvailableFileVirtualAddress ≤ top
  top_lt : top < 4294967296
  behind : fileStart ≤ s.kernel.nextAvailableFileVirtualAddress
  absent : ∀ virt, s.kernel.nextAvailableFileVirtualAddress ≤ virt → virt < top →
    Absent s.machine dir virt

/-- The tables after the file was opened. -/
theorem opened_tables {ext : Ext} {k k' : Kernel} {filepath : CString} {flags fd : Nat}
    (hfiles : ∀ fd, k.openFileTable fd = OpenFile.zero)
    (hinodes : ∀ i, k.openInodeTable i = Fs.noInode)
    (hret : syscallOpen ext k filepath flags = ((fd : Int), k')) :
    ∃ i inode, k'.openInodeTable i = inode ∧ (k'.openFileTable fd).inode = some i ∧
      (k'.openFileTable fd).refCount = 1 ∧
      (k'.openFileTable fd).address = k.nextAvailableFileVirtualAddress ∧
      (k'.openFileTable fd).offset < 4294967296 ∧
      (k'.openFileTable fd).pagesAllocated = u32 (sizeInPages inode.sizeBytes) ∧
      k'.nextAvailableFileVirtualAddress =
        u32 (k.nextAvailableFileVirtualAddress + sizeInPages inode.sizeBytes * 4096) := by
  -- The file was found, or created first.
  have hcase : ∃ k₁ fileInode, fileInode.id ≠ 0 ∧
      Syscalls.openInode ext k₁ fileInode flags = (fd, k') ∧
      k₁.openFileTable = k.openFileTable ∧ k₁.openInodeTable = k.openInodeTable ∧
      k₁.nextAvailableFileVirtualAddress = k.nextAvailableFileVirtualAddress := by
    unfold syscallOpen at hret
    simp only [] at hret
    split at hret
    · next hid =>
      obtain ⟨hfd, hk⟩ := Prod.mk.inj hret
      exact ⟨k, _, hid, Prod.ext (Int.ofNat.inj hfd) hk, rfl, rfl, rfl⟩
    · split at hret
      · exact absurd (Prod.mk.inj hret).1 (by omega)
      · split at hret
        · exact absurd (Prod.mk.inj hret).1 (by omega)
        · next hid =>
          obtain ⟨hfd, hk⟩ := Prod.mk.inj hret
          exact ⟨_, _, hid, Prod.ext (Int.ofNat.inj hfd) hk, rfl, rfl, rfl⟩
  obtain ⟨k₁, fileInode, hid, hopen, hfiles₁, hinodes₁, hnext₁⟩ := hcase
  have hempty : ∀ i, (k₁.openInodeTable i).id = 0 := fun i => by
    rw [hinodes₁, hinodes]
    exact Fs.id_noInode
  have hbehind : (k₁.openInodeTable Syscalls.maxOpen).id ≠ fileInode.id := by
    rw [hempty]
    exact hid.symm
  have helement : Syscalls.HasElement k₁.openInodeTable fileInode.id :=
    Or.inr ⟨hbehind, 0, by decide, hempty 0⟩
  obtain ⟨i, inode, henter, -⟩ := Syscalls.enterInode_entered helement
  obtain ⟨-, htable, hfile, hnext, -⟩ := Syscalls.openInode_tables hopen henter
  have hentry : k'.openFileTable fd = Syscalls.openedFile k₁ fd i inode flags := by
    rw [hfile, Function.update_self]
  have hzero : (k₁.openFileTable fd).pagesAllocated = 0 := by
    rw [hfiles₁, hfiles]
    rfl
  refine ⟨i, inode, by rw [htable, Function.update_self], ?_, ?_, ?_, ?_, ?_, ?_⟩
  · rw [hentry]
    rfl
  · rw [hentry]
    rfl
  · rw [hentry, ← hnext₁]
    rfl
  · rw [hentry]
    unfold Syscalls.openedFile
    simp only []
    split
    · exact sizeBytes_lt inode
    · decide
  · rw [hentry]
    unfold Syscalls.openedFile
    rw [hzero, Nat.zero_add]
  · rw [hnext, hnext₁]
    rfl

/-- The file of a descriptor fits: its buffer ends below `top`, and its extents are no longer than
its pages. -/
structure FitsFile (top : Nat) (k : Kernel) (fd : Nat) : Prop where
  space : (k.openFileTable fd).address +
    4096 * sizeInPages (k.inodeOf (k.openFileTable fd)).sizeBytes ≤ top
  extents : extentBlocks k.fs.superblock.directExtentsPerInode (k.inodeOf (k.openFileTable fd)) ≤
    sizeInPages (k.inodeOf (k.openFileTable fd)).sizeBytes

/-- **The file is open.** -/
theorem fileOpen_opened {dir top fd flags : Nat} {ext : Ext} {filepath : CString}
    {s s' : FileSession} (hdir : IsDirectory dir) (hnothing : NothingOpen dir top s)
    (hopen : OpenStep dir fd ext filepath flags s s') (hfile : FitsFile top s'.kernel fd) :
    ∃ i, FileOpen dir top fd i s.machine s.kernel.nextAvailableFileVirtualAddress s' := by
  cases hopen with
  | @opened k m hret hpages =>
  obtain ⟨i, inode, hinode, hindex, hcount, haddress, hoffset, hallocated, hnext⟩ :=
    opened_tables hnothing.files hnothing.inodes hret
  have hspace := hfile.space
  have hextents := hfile.extents
  have hat := hnothing.address
  have htop := hnothing.top_lt
  simp only [inodeOf_eq hindex, haddress, hinode] at hspace hextents
  have hsome : 0 < sizeInPages inode.sizeBytes := by
    rw [sizeInPages_eq]
    omega
  have hsmall : u32 (sizeInPages inode.sizeBytes) = sizeInPages inode.sizeBytes := u32_eq (by omega)
  rw [hsmall] at hallocated
  have hstart := Buffered.start hnothing.tabled hnothing.aligned hnothing.behind hat
    htop hnothing.absent
  unfold openEvents at hpages
  simp only [inodeOf_eq hindex, haddress, hinode] at hpages
  obtain ⟨m', hmap, hload⟩ := hpages.split
  have hmapped := hstart.mapEvents hdir (sizeInPages inode.sizeBytes) 0
    (by rw [Nat.zero_add]; exact hspace) (by rw [Nat.mul_zero, Nat.add_zero]; exact hmap)
  rw [Nat.zero_add] at hmapped
  have hloaded := hmapped.transfer hdir hextents hload
  refine ⟨i, hindex, hcount, haddress, hoffset, ?_, ?_, ?_, ?_, ?_⟩
  · simp only [hallocated]
    exact hsome
  · simp only [hallocated, hinode]
    exact Nat.le_refl _
  · simp only [hallocated, hnext]
    rw [Nat.mul_comm _ 4096]
    exact u32_eq (Nat.lt_of_le_of_lt hspace htop)
  · simp only [hinode]
    exact hloaded
  · simp only [hinode]
    exact hextents

/-- **What a call may do.** -/
def FitsPages (top : Nat) (k : Kernel) (fd : Nat) : FileCall → Prop
  | .seek _ _ => True
  | .read len => Reads k fd → FitsRead k fd len
  | .write _ _ len => Writes k fd → FitsWrite top k fd len

/-- **The pages of the file are those of its size**, in every run of calls that fit. -/
theorem fileOpen_reach {dir top fd i address : Nat} {m₀ : Machine} {s s' : FileSession}
    (hdir : IsDirectory dir) (h : FileOpen dir top fd i m₀ address s)
    (hrun : Reach (FileStep dir fd) (fun s call => FitsPages top s.kernel fd call) s s') :
    FileOpen dir top fd i m₀ address s' := by
  refine hrun.invariant h ?_
  intro s call s' hs hok hstep
  cases hstep with
  | seek => exact hs.seek _ _
  | read hpages => exact hs.read hdir hok hpages
  | write hpages => exact hs.write hdir hok hpages

/-- **What was taken is given back**: the bitmap is what it was but for frames of tables, and from
the address of the buffer to `top` no page is mapped. -/
structure GivenBack (dir top : Nat) (m₀ : Machine) (address : Nat) (m : Machine) : Prop where
  bitmap : ∀ b, ¬ IsTable m.memory dir (b * 4096) →
    bitAt m.manager.memoryMap b = bitAt m₀.manager.memoryMap b
  unmapped : ∀ virt, address ≤ virt → virt < top → Absent m dir virt

/-- Closing gives back what the file took. -/
theorem FileOpen.close {dir top fd i address : Nat} {m₀ : Machine} {s : FileSession}
    (hdir : IsDirectory dir) (h : FileOpen dir top fd i m₀ address s) (ext : Ext) :
    GivenBack dir top m₀ address (closeFile dir fd ext s).machine := by
  have hmachine : (closeFile dir fd ext s).machine =
      closePages dir (sizeInPages (s.kernel.openInodeTable i).sizeBytes) s.machine address := by
    unfold closeFile closeMachine
    simp only [h.index, h.refCount, h.address_eq]
    rfl
  obtain ⟨hbits, -, habsent⟩ := h.buffered.closePages hdir
  rw [hmachine]
  refine ⟨fun b hb => ?_, habsent⟩
  have hiff := (hbits b).trans (or_iff_left hb)
  exact Bool.eq_iff_iff.mpr hiff

/-- **Closing a file gives back exactly what it took**, when the file and every call on its
descriptor fit. -/
theorem file_closed (dir top fd flags : Nat) (ext closeExt : Ext) (filepath : CString)
    (s₀ s₁ s₂ : FileSession) (hdir : IsDirectory dir) (hnothing : NothingOpen dir top s₀)
    (hopen : OpenStep dir fd ext filepath flags s₀ s₁) (hfile : FitsFile top s₁.kernel fd)
    (hrun : Reach (FileStep dir fd) (fun s call => FitsPages top s.kernel fd call) s₁ s₂) :
    GivenBack dir top s₀.machine s₀.kernel.nextAvailableFileVirtualAddress
      (closeFile dir fd closeExt s₂).machine := by
  obtain ⟨i, h⟩ := fileOpen_opened hdir hnothing hopen hfile
  exact (fileOpen_reach hdir h hrun).close hdir closeExt

/-! ## 6. A write far behind the end -/

/-- The root directory, which counts itself. -/
def openedRoot : Inode := (Fs.noInode.setId 1).setRefCount 1

/-- Before `/` is opened. -/
def closedSession : FileSession := ⟨Syscalls.freshKernel openedRoot, emptyMachine⟩

/-- `/` is open for reading and writing. -/
def openSession : FileSession where
  kernel := (syscallOpen Syscalls.quietExt closedSession.kernel Syscalls.rootPath oRdwr).2
  machine := (mapNewPage emptyMachine 4096 0x40000000).getD emptyMachine

theorem closedSession_nothingOpen : NothingOpen 4096 0xFD000000 closedSession := by
  obtain ⟨htables, hinUse⟩ := @tables_empty emptyMachine 4096 emptyMachine_empty (by decide)
  exact ⟨fun _ => rfl, fun _ => rfl, ⟨htables, hinUse, by decide, by decide⟩, by decide, by decide,
    by decide, by decide, fun _ _ _ => congrArg (· % 2) (if_pos rfl)⟩

/-- What `open` does there. -/
theorem openSession_values :
    (syscallOpen Syscalls.quietExt closedSession.kernel Syscalls.rootPath oRdwr).1 = 0 ∧
    openEvents closedSession.kernel openSession.kernel 0 = [.map 0x40000000] ∧
    mapNewPage emptyMachine 4096 0x40000000 ≠ none ∧
    FramesReady emptyMachine 4096 0x40000000 userFlags ∧
    (openSession.kernel.openFileTable 0).address = 0x40000000 ∧
    (openSession.kernel.inodeOf (openSession.kernel.openFileTable 0)).sizeBytes = 0 ∧
    extentBlocks openSession.kernel.fs.superblock.directExtentsPerInode
      (openSession.kernel.inodeOf (openSession.kernel.openFileTable 0)) = 0 := by
  decide +kernel

theorem openSession_opened : OpenStep 4096 0 Syscalls.quietExt Syscalls.rootPath oRdwr closedSession
    openSession := by
  obtain ⟨hret, hevents, hmapped, hready, -⟩ := openSession_values
  have hmap : mapNewPage emptyMachine 4096 0x40000000 = some openSession.machine :=
    (Option.getD_of_ne_none hmapped emptyMachine).symm
  have hpages : PageRun 4096 (openEvents closedSession.kernel openSession.kernel 0) emptyMachine
      openSession.machine := by
    rw [hevents]
    exact .cons (served_of hready) hmap .done
  exact .opened (Prod.ext hret rfl) hpages

theorem openSession_fits : FitsFile 0xFD000000 openSession.kernel 0 := by
  obtain ⟨-, -, -, -, haddress, hsize, hextents⟩ := openSession_values
  constructor
  · rw [haddress, hsize]
    decide
  · rw [hextents]
    exact Nat.zero_le _

/-- The theorem for a write of one byte to an empty file. -/
theorem file_closed_write : ∃ s,
    FileStep 4096 0 openSession (.write Syscalls.quietExt (fun _ => 7) 1) s ∧
    GivenBack 4096 0xFD000000 emptyMachine 0x40000000
      (closeFile 4096 0 Syscalls.quietExt s).machine := by
  have hvalues : writeEvents openSession.kernel 0 1 = [.access 0x40000000] ∧
      getPhysicalAddress openSession.machine.memory 4096 0x40000000 % 2 = 1 ∧
      writeOffset openSession.kernel (openSession.kernel.openFileTable 0) = 0 := by
    decide +kernel
  obtain ⟨hevents, hpresent, hoffset⟩ := hvalues
  obtain ⟨-, -, -, -, haddress, -⟩ := openSession_values
  have hstep : FileStep 4096 0 openSession (.write Syscalls.quietExt (fun _ => 7) 1)
      ⟨(syscallWrite Syscalls.quietExt openSession.kernel 0 (fun _ => 7) 1).2,
        openSession.machine⟩ := by
    refine .write ?_
    rw [hevents]
    exact .accesses fun e he => ⟨_, List.mem_singleton.mp he, hpresent⟩
  have hok : FitsPages 0xFD000000 openSession.kernel 0
      (.write Syscalls.quietExt (fun _ => 7) 1) := by
    intro _
    constructor
    · rw [haddress, hoffset]
      decide
    · rw [hoffset]
      exact fun hbehind => absurd hbehind (Nat.not_lt_zero _)
  exact ⟨_, hstep, file_closed 4096 0xFD000000 0 oRdwr Syscalls.quietExt Syscalls.quietExt
    Syscalls.rootPath closedSession openSession _ ⟨by decide, by decide⟩ closedSession_nothingOpen
    openSession_opened openSession_fits (.tail .refl hok hstep)⟩

/-- The offset is behind the end. -/
def soughtSession : FileSession :=
  { openSession with kernel := (syscallSeek openSession.kernel 0 5000 .seekSet).2 }

/-- The machine when the write has mapped the first page, and the second. -/
def gapMachine : Machine :=
  (mapNewPage openSession.machine 4096 0x40001000).getD openSession.machine

def writtenMachine : Machine := (mapNewPage gapMachine 4096 0x40002000).getD gapMachine

/-- A byte was written at the offset 5000. -/
def writtenSession : FileSession :=
  ⟨(syscallWrite Syscalls.quietExt soughtSession.kernel 0 (fun _ => 7) 1).2, writtenMachine⟩

/-- What that write does, and what is left when the file is closed. -/
theorem writtenSession_values :
    writeEvents soughtSession.kernel 0 1 = [.map 0x40001000, .map 0x40002000,
      .access 0x40000000, .access 0x40001000, .access 0x40001000] ∧
    mapNewPage openSession.machine 4096 0x40001000 ≠ none ∧
    FramesReady openSession.machine 4096 0x40001000 userFlags ∧
    mapNewPage gapMachine 4096 0x40002000 ≠ none ∧
    FramesReady gapMachine 4096 0x40002000 userFlags ∧
    (∀ virt ∈ [0x40000000, 0x40001000, 0x40001000],
      getPhysicalAddress writtenMachine.memory 4096 virt % 2 = 1) ∧
    ¬ Absent (closeFile 4096 0 Syscalls.quietExt writtenSession).machine 4096 0x40002000 := by
  decide +kernel

theorem writtenSession_step :
    FileStep 4096 0 soughtSession (.write Syscalls.quietExt (fun _ => 7) 1) writtenSession := by
  obtain ⟨hevents, hfirst, hready, hsecond, hready', hpresent, -⟩ := writtenSession_values
  have hgap : mapNewPage openSession.machine 4096 0x40001000 = some gapMachine :=
    (Option.getD_of_ne_none hfirst openSession.machine).symm
  have hwritten : mapNewPage gapMachine 4096 0x40002000 = some writtenMachine :=
    (Option.getD_of_ne_none hsecond gapMachine).symm
  refine .write ?_
  rw [hevents]
  refine .cons (served_of hready) hgap (.cons (served_of hready') hwritten (.accesses ?_))
  intro e he
  have hin : e ∈ List.map PageEvent.access [0x40000000, 0x40001000, 0x40001000] := he
  obtain ⟨virt, hvirt, rfl⟩ := List.mem_map.mp hin
  exact ⟨virt, rfl, hpresent virt hvirt⟩

/-- **A page is not given back** after a write behind the end. -/
theorem file_leaks : ¬ ∀ (dir top fd flags : Nat) (ext closeExt : Ext) (filepath : CString)
    (s₀ s₁ s₂ : FileSession), IsDirectory dir → NothingOpen dir top s₀ →
    OpenStep dir fd ext filepath flags s₀ s₁ → FitsFile top s₁.kernel fd →
    Reach (FileStep dir fd) (fun _ _ => True) s₁ s₂ →
    GivenBack dir top s₀.machine s₀.kernel.nextAvailableFileVirtualAddress
      (closeFile dir fd closeExt s₂).machine := by
  intro hall
  have hseek : FileStep 4096 0 openSession (.seek 5000 .seekSet) soughtSession := .seek
  have hrun : Reach (FileStep 4096 0) (fun _ _ => True) openSession writtenSession :=
    .tail (.tail .refl trivial hseek) trivial writtenSession_step
  have hback := hall 4096 0xFD000000 0 oRdwr Syscalls.quietExt Syscalls.quietExt Syscalls.rootPath
    closedSession openSession writtenSession ⟨by decide, by decide⟩ closedSession_nothingOpen
    openSession_opened openSession_fits hrun
  obtain ⟨-, -, -, -, -, -, hleft⟩ := writtenSession_values
  exact hleft (hback.unmapped 0x40002000 (by decide) (by decide))

end AmateurOs.Exec
