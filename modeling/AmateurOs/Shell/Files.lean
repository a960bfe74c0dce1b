/-
# `type`

`cmd_type` of `kernel.c` opens a file, reads it to its end in pieces of 512 bytes and prints every
byte, with a line end in front of which it puts a carriage return.  Five things have to agree for the
text to be that of the file on the disk: the name, the element in the table of open inodes, the
extents that `fs_load_file` reads, the offset that the reads move, and the printing.

The element is right in every run whose calls keep the table right, so `file_typed_out` is about
all of these.
-/
import AmateurOs.Shell.Lines
import AmateurOs.Syscalls.Durable

namespace AmateurOs.Shell

open AmateurOs.Lib AmateurOs.Syscalls
open AmateurOs.Fs (Inode State CString diskBlocks)
open AmateurOs.Terminal (char text)

/-! ## 1. `cmd_type` -/

/-- What is printed for a byte of a file. -/
def typedByte (c : UInt8) : List (List UInt8) :=
  if c = char '\n' then [[char '\r'], [char '\n']] else [[c]]

/-- The bytes of a file with a carriage return in front of each line end. -/
def withReturns (file : List UInt8) : List UInt8 :=
  file.flatMap fun c => if c = char '\n' then [char '\r', char '\n'] else [c]

/-- `cmd_type`: what it returns, the texts it prints and the kernel it leaves, for the string at
`argument` in the line of the shell. -/
def cmdType (openExt closeExt : Ext) (fuel : Nat) (below m : Bytes) (k : Kernel) (argument : Nat) :
    Option (Bool × List (List UInt8) × Kernel) :=
  let path := stringAt m argument
  if !endsIn below m argument (text ".txt") then
    some (false, [text "\r\nError: File " ++ path.chars ++ text " is not a text file\r\n"], k)
  else
    let (fd, k) := syscallOpen openExt k path oRdonly
    if fd < 3 then
      some (false, [text "\r\nError: Could not open file " ++ path.chars ++
        text " for reading\r\n"], k)
    else do
      let (pieces, k) ← readLoop fd.toNat 512 fuel k
      return (true, text "\r\n" :: pieces.flatten.flatMap typedByte, (syscallClose closeExt k fd).2)

theorem flatten_typedByte (file : List UInt8) :
    (file.flatMap typedByte).flatten = withReturns file := by
  induction file with
  | nil => rfl
  | cons c file ih =>
    have hbyte : (typedByte c).flatten = if c = char '\n' then [char '\r', char '\n'] else [c] := by
      rw [typedByte]
      split <;> rfl
    rw [List.flatMap_cons, List.flatten_append, ih, hbyte]
    rfl

/-- **When a path leads to a file that can be typed**: there are an element and a descriptor for it,
its blocks are loaded whole, and the three standard descriptors are taken. -/
structure Typable (ext : Ext) (k : Kernel) (path : CString) (f : Inode) : Prop where
  way : Fs.PathOk ext.fsEnv k.fs path
  found : Fs.inodeFromPath ext.fsEnv k.fs path = f
  exist : f.id ≠ 0
  element : HasElement k.openInodeTable f.id
  standard : ∀ fd < 3, (k.openFileTable fd).address ≠ 0 ∧ (k.openFileTable fd).refCount ≠ 0
  descriptor : ∃ fd < maxOpen, (k.openFileTable fd).refCount = 0
  load : Loadable k.fs f k.nextAvailableFileVirtualAddress
  address : k.nextAvailableFileVirtualAddress ≠ 0
  size : f.sizeBytes < 2147483648

/-- **A file is typed out**: what is printed are its bytes on the disk, with a carriage return in
front of each line end; the disk is left alone, and so are the descriptors, but for a free one that
is empty afterwards. -/
structure TypedOut (k : Kernel) (f : Inode) (printed : List (List UInt8)) (k' : Kernel) : Prop where
  printed : printed.flatten = text "\r\n" ++ withReturns (diskFile k.fs f)
  fs : k'.fs = k.fs
  descriptor : ∃ fd < maxOpen, ((k.openFileTable fd).address = 0 ∨
      (k.openFileTable fd).refCount = 0) ∧
    k'.openFileTable = Function.update k.openFileTable fd OpenFile.zero

/-- **`cmd_type`** on a table that agrees with the disk. -/
theorem Typable.typed {ext : Ext} {k : Kernel} {below m : Bytes} {argument : Nat} {f : Inode}
    {path : List UInt8} (h : Typable ext k (stringAt m argument) f) (hagrees : TableAgrees k)
    (hpath : Spells m argument (path ++ [0])) (hnonzero : ∀ c ∈ path, c ≠ 0)
    (hshort : path.length ≤ 255) (htxt : text ".txt" <:+ path) (closeExt : Ext) {fuel : Nat}
    (hfuel : (f.sizeBytes + 511) / 512 < fuel) :
    ∃ printed k', cmdType ext closeExt fuel below m k argument = some (true, printed, k') ∧
      TypedOut k f printed k' := by
  have hends : endsIn below m argument (text ".txt") = true :=
    (endsIn_iff hpath hnonzero hshort below (by decide) (by decide +kernel) htxt.length_le).mpr htxt
  have hexist : (Fs.inodeFromPath ext.fsEnv k.fs (stringAt m argument)).id ≠ 0 := by
    rw [h.found]
    exact h.exist
  have hf : Fs.OnDisk k.fs f := h.found ▸ (hagrees.sane.inodeFromPath h.way).onDisk hexist
  have hopened := openInode_opened hagrees ext hf h.element h.load h.address h.size
  obtain ⟨hfd, hfree⟩ := searchFd_found h.descriptor
  have hnumber : (openInode ext k f oRdonly).1 = searchFd k.openFileTable := rfl
  rw [← hnumber] at hfd hfree
  have hopen : syscallOpen ext k (stringAt m argument) oRdonly =
      (((openInode ext k f oRdonly).1 : Int), (openInode ext k f oRdonly).2) := by
    unfold syscallOpen
    simp only [if_pos hexist]
    rw [h.found]
  generalize (openInode ext k f oRdonly).1 = fd at *
  generalize (openInode ext k f oRdonly).2 = k₁ at *
  have hstandard : ¬ (fd : Int) < 3 := by
    intro hlt
    obtain ⟨haddress, hcount⟩ := h.standard fd (by omega)
    exact hfree.elim haddress hcount
  obtain ⟨pieces, hloop, hpieces⟩ := @readLoop_pieces fd 512 (by decide) (by decide) fuel k₁
    hopened.readable (by rw [hopened.size, hopened.start]; exact hfuel)
  obtain ⟨hfs, hclosed⟩ := hopened.closed closeExt (fileSize k₁ fd)
  have hbytes : pieces.flatten = diskFile k.fs f := by
    rw [hpieces.bytes, hopened.start, hopened.size, hopened.bytes]
  refine ⟨text "\r\n" :: pieces.flatten.flatMap typedByte, _, ?_, ?_, hfs, fd, hfd, hfree, hclosed⟩
  · unfold cmdType
    simp only [hends, hopen, if_neg hstandard, Int.toNat_natCast, hloop]
    rfl
  · rw [List.flatten_cons, flatten_typedByte, hbytes]

/-- The argument `x.txt`. -/
def txtMemory : Bytes := Fs.cstr (text "x.txt") fun _ => 0

/-- `x.txt`. -/
def txtPath : CString where
  chars := text "x.txt"
  nonzero := by decide +kernel
  after := fun _ => 0

theorem txtMemory_spells : Spells txtMemory 0 (text "x.txt" ++ [0]) :=
  spells_append.mpr ⟨fun k hk => by rw [Nat.zero_add]; exact Fs.cstr_lt hk,
    spells_cons.mpr ⟨by rw [Nat.zero_add]; exact Fs.cstr_length, spells_nil⟩⟩

theorem stringAt_txtMemory : stringAt txtMemory 0 = txtPath := by
  have hchars : charsAt txtMemory addressTurns 0 = text "x.txt" :=
    charsAt_eq txtMemory_spells txtPath.nonzero (by decide)
  have hafter : (stringAt txtMemory 0).after = txtPath.after := by
    funext k
    have hlong : ¬ 0 + (text "x.txt").length + 1 + k < (text "x.txt").length := by omega
    have hbehind : ¬ 0 + (text "x.txt").length + 1 + k = (text "x.txt").length := by omega
    have hbytes : (stringAt txtMemory 0).after k =
        txtMemory (0 + (charsAt txtMemory addressTurns 0).length + 1 + k) := rfl
    rw [hbytes, hchars, txtMemory, Fs.cstr, dif_neg hlong, if_neg hbehind]
    rfl
  have hsame : (stringAt txtMemory 0).chars = txtPath.chars := hchars
  cases hstring : stringAt txtMemory 0
  rw [hstring] at hsame hafter
  cases hsame
  cases hafter
  rfl

/-- Two characters with a line end between them. -/
def txtBytes : Bytes := Fs.cstr (text "a\nb") fun _ => 0

/-- The file is created, written, and opened twice more. -/
def firstSession : Session :=
  Session.request ⟨quietKernel, fun _ => none⟩ (.open zeroExt txtPath (oCreat ||| oRdwr))

def writtenSession : Session := firstSession.request (.write zeroExt 0 txtBytes 3)

def secondSession : Session := writtenSession.request (.open zeroExt txtPath oRdwr)

def thirdSession : Session := secondSession.request (.open zeroExt txtPath oRdwr)

/-- Inode 3, with block 6 and no bytes. -/
def emptyTxt : Inode := fun k => if k = 0 then 3 else if k = 21 then 6 else if k = 25 then 1 else 0

/-- The same with three bytes, in one sector. -/
def txtFile : Inode := fun k => if k = 5 then 3 else if k = 9 then 1 else emptyTxt k

theorem txtPath_values :
    Fs.walked txtPath = [text "x.txt"] ∧
      (∀ c ∈ Fs.walked txtPath,
        c = [] ∨ c = [Fs.dot] ∨ Fs.entryMatches Fs.quietEnv.afterTempBlock c 0 = false) ∧
      (Fs.inodeFromPath Fs.quietEnv quietKernel.fs txtPath).id = 0 ∧
      (∀ k, (Fs.fsCreateFile Fs.quietEnv quietKernel.fs txtPath).1 k = emptyTxt k) ∧
      quietKernel.fs.rootInode.id = 1 ∧ emptyTxt.id = 3 ∧ txtFile.id = 3 ∧ txtFile.sizeBytes = 3 ∧
      ∀ i < 4, txtFile.extentFirst i + txtFile.extentLength i ≤ 7 ∧ txtFile.extentLength i ≤ 1 := by
  decide +kernel

/-- The file when it is written. -/
theorem writtenSession_values :
    (∀ k, Fs.inodeFromPath Fs.quietEnv writtenSession.kernel.fs txtPath k = txtFile k) ∧
      (∀ k < 3, diskByte writtenSession.kernel.fs txtFile k = txtBytes k) ∧
      (Fs.startInode writtenSession.kernel.fs txtPath.chars).type = Fs.filetypeDir ∧
      writtenSession.kernel.fs.superblock.directExtentsPerInode = 4 ∧
      (firstSession.kernel.openFileTable 0).inode = some 0 ∧
      (firstSession.kernel.openInodeTable 0).id = 3 ∧
      (firstSession.kernel.openInodeTable 0).type = Fs.filetypeFile ∧
      (firstSession.kernel.fs.volume.inode 3).id = 3 := by
  decide +kernel

theorem txtPath_found : Fs.inodeFromPath Fs.quietEnv writtenSession.kernel.fs txtPath = txtFile :=
  funext writtenSession_values.1

theorem txtFile_fields : txtFile.id = 3 ∧ txtFile.sizeBytes = 3 := by
  obtain ⟨-, -, -, -, -, -, hid, hsize, -⟩ := txtPath_values
  exact ⟨hid, hsize⟩

theorem txtPath_ok {s : State} (hstart : (Fs.startInode s txtPath.chars).type = Fs.filetypeDir) :
    Fs.PathOk Fs.quietEnv s txtPath := by
  obtain ⟨hwalked, hquiet, -⟩ := txtPath_values
  refine ⟨fun pre hpre hne => ?_, hquiet⟩
  rw [hwalked] at hpre hne
  obtain rfl : pre = [] := by
    rcases List.prefix_cons_iff.mp hpre with hnil | ⟨rest, rfl, hrest⟩
    · exact hnil
    · exact absurd (congrArg (text "x.txt" :: ·) (List.prefix_nil.mp hrest)) hne
  exact Or.inr hstart

theorem txtPath_openAgrees : OpenAgrees zeroExt quietKernel txtPath (oCreat ||| oRdwr) := by
  have hid : (inodeToOpen zeroExt quietKernel txtPath (oCreat ||| oRdwr)).id = 3 := by
    decide +kernel
  have hname : Fs.lastNameInPath txtPath = text "x.txt" := by decide +kernel
  have hempty : ∀ i, (quietKernel.openInodeTable i).id = 0 := fun _ => Fs.id_noInode
  have hother : ∀ i, (quietKernel.openInodeTable i).id ≠
      (inodeToOpen zeroExt quietKernel txtPath (oCreat ||| oRdwr)).id := fun i => by
    rw [hempty, hid]
    decide
  have hreach : Fs.Reachable Fs.quietEnv quietKernel.fs txtPath := by
    refine ⟨⟨?_, ?_, ?_⟩, ?_, fun pre c hpre _ hne => ?_, ?_⟩
    · rw [hname]
      decide
    · rw [hname]
      decide
    · rw [hname]
      decide
    · decide +kernel
    · have hwalked : Fs.walked txtPath.cut = [[]] := by decide +kernel
      have hmem := hpre.subset (List.mem_append_right pre (List.mem_singleton_self c))
      rw [hwalked] at hmem
      exact absurd (List.mem_singleton.mp hmem) hne
    · rw [hname]
      decide +kernel
  have hplace : Fs.Place Fs.quietEnv quietKernel.fs
      (Fs.parentInodeFromPath Fs.quietEnv quietKernel.fs txtPath) 5 3 := by
    refine ⟨?_, ?_, ?_⟩ <;> decide +kernel
  refine ⟨txtPath_ok ?_, fun _ _ => ⟨⟨⟨⟨txtPath_ok ?_, ?_, Or.inr ⟨?_, ?_, ?_, ?_⟩⟩,
    Or.inr ⟨7, ?_, ?_, ?_⟩⟩, Or.inr fun i _ => ?_, Or.inr fun i _ heq => ?_⟩,
    Or.inr ⟨hreach, 5, 3, hplace⟩⟩, fun _ => Or.inr ⟨hother _, 0, by decide, hempty 0⟩⟩
  · decide +kernel
  · decide +kernel
  · decide +kernel
  · decide +kernel
  · decide +kernel
  · decide +kernel
  · decide +kernel
  · decide +kernel
  · decide +kernel
  · decide +kernel
  · rw [hempty]
    decide +kernel
  · rw [hempty] at heq
    have hused : quietKernel.fs.superblock.firstFreeInodeBit ≠ 0 := by decide +kernel
    exact absurd heq.symm hused

theorem txtPath_exist : (Fs.inodeFromPath zeroExt.fsEnv writtenSession.kernel.fs txtPath).id = 3 :=
  (congrArg Inode.id txtPath_found).trans txtFile_fields.1

theorem txtPath_way {s : State} (hfs : s = writtenSession.kernel.fs) :
    Fs.PathOk Fs.quietEnv s txtPath := by
  obtain ⟨-, -, hstart, -⟩ := writtenSession_values
  subst hfs
  exact txtPath_ok hstart

theorem txtPath_again {k : Kernel} (hfs : k.fs = writtenSession.kernel.fs)
    (helement : (k.openInodeTable 0).id = 3) : OpenAgrees zeroExt k txtPath oRdwr := by
  have hid : (Fs.inodeFromPath zeroExt.fsEnv k.fs txtPath).id = 3 := by
    rw [hfs]
    exact txtPath_exist
  refine ⟨txtPath_way hfs, fun hnone => ?_, fun _ =>
    Or.inl ⟨0, by decide, ?_⟩⟩
  · rw [hid] at hnone
    cases hnone
  · have hopened : inodeToOpen zeroExt k txtPath oRdwr =
        Fs.inodeFromPath zeroExt.fsEnv k.fs txtPath := by
      unfold inodeToOpen
      exact if_pos (hid ▸ (by decide : (3 : Nat) ≠ 0))
    rw [hopened, hid]
    exact helement

/-- A file that exists is opened as it is. -/
theorem request_open_found {s : Session} {ext : Ext} {path : CString} (flags : Nat)
    (hexist : (Fs.inodeFromPath ext.fsEnv s.kernel.fs path).id ≠ 0) :
    (s.request (.open ext path flags)).kernel =
      (openInode ext s.kernel (Fs.inodeFromPath ext.fsEnv s.kernel.fs path) flags).2 := by
  unfold Session.request Session.call syscallOpen
  simp only [if_pos hexist]

theorem firstSession_kernel : firstSession.kernel = (openInode zeroExt
    { quietKernel with fs := (Fs.fsCreateFile Fs.quietEnv quietKernel.fs txtPath).2 } emptyTxt
    (oCreat ||| oRdwr)).2 := by
  obtain ⟨-, -, hnone, hbytes, -, hid, -⟩ := txtPath_values
  have hmissing : ¬ (Fs.inodeFromPath zeroExt.fsEnv quietKernel.fs txtPath).id ≠ 0 :=
    not_not_intro hnone
  have hcreated : (Fs.fsCreateFile zeroExt.fsEnv quietKernel.fs txtPath).1 = emptyTxt :=
    funext hbytes
  have hflag : hasFlag (oCreat ||| oRdwr) oCreat = true := by decide
  have hid : ¬ emptyTxt.id = 0 := hid ▸ (by decide : (3 : Nat) ≠ 0)
  unfold firstSession Session.request Session.call syscallOpen
  simp only [if_neg hmissing, hflag, Bool.not_true, Bool.false_eq_true, if_false, hcreated,
    if_neg hid]
  rfl

theorem writtenSession_kernel :
    writtenSession.kernel = (syscallWrite zeroExt firstSession.kernel 0 txtBytes 3).2 := rfl

/-- The file is written through descriptor 0. -/
theorem firstSession_written : WriteAgrees firstSession.kernel 0 := by
  obtain ⟨-, -, -, -, hinode, hid, htype, hcarries⟩ := writtenSession_values
  intro i hi _
  obtain rfl : i = 0 := Option.some.inj (hi.symm.trans hinode)
  exact ⟨⟨hid ▸ (by decide : (3 : Nat) ≠ 0), by rw [hid, hcarries]⟩, htype⟩

theorem secondSession_kernel :
    secondSession.kernel = (openInode zeroExt writtenSession.kernel txtFile oRdwr).2 := by
  unfold secondSession
  rw [← txtPath_found]
  exact request_open_found oRdwr (ne_of_eq_of_ne txtPath_exist (by decide))

theorem secondSession_fs : secondSession.kernel.fs = writtenSession.kernel.fs :=
  (congrArg Kernel.fs secondSession_kernel).trans (openInode_fs zeroExt _ txtFile oRdwr)

theorem thirdSession_kernel :
    thirdSession.kernel = (openInode zeroExt secondSession.kernel txtFile oRdwr).2 := by
  have hfound : Fs.inodeFromPath zeroExt.fsEnv secondSession.kernel.fs txtPath = txtFile := by
    rw [secondSession_fs]
    exact txtPath_found
  unfold thirdSession
  rw [request_open_found oRdwr (hfound ▸ txtFile_fields.1 ▸ (by decide : (3 : Nat) ≠ 0)), hfound]

theorem thirdSession_fs : thirdSession.kernel.fs = writtenSession.kernel.fs :=
  ((congrArg Kernel.fs thirdSession_kernel).trans (openInode_fs zeroExt _ txtFile oRdwr)).trans
    secondSession_fs

/-- The extents of the file fit at the next address, and descriptor 3 is the free one. -/
theorem thirdSession_values :
    (writtenSession.kernel.openInodeTable 0).id = 3 ∧
      (secondSession.kernel.openInodeTable 0).id = 3 ∧
      thirdSession.kernel.nextAvailableFileVirtualAddress ≠ 0 ∧
      thirdSession.kernel.nextAvailableFileVirtualAddress +
        4096 * blockCount txtFile (List.range 4) ≤ 4294967296 ∧
      (thirdSession.kernel.openInodeTable 0).id = 3 ∧
      (∀ fd < 3, (thirdSession.kernel.openFileTable fd).address ≠ 0 ∧
        (thirdSession.kernel.openFileTable fd).refCount ≠ 0) ∧
      (thirdSession.kernel.openFileTable 3).refCount = 0 := by
  rw [thirdSession_kernel, secondSession_kernel, writtenSession_kernel, firstSession_kernel]
  decide +kernel

theorem thirdSession_reached : Reach RequestStep RequestAgrees ⟨quietKernel, fun _ => none⟩
    thirdSession := by
  obtain ⟨hfirst, hsecond, -⟩ := thirdSession_values
  refine .tail (.tail (.tail (.tail .refl ?_ (rfl : firstSession = _)) ?_
    (rfl : writtenSession = _)) ?_ (rfl : secondSession = _)) ?_ rfl
  · exact txtPath_openAgrees
  · exact firstSession_written
  · exact txtPath_again rfl hfirst
  · exact txtPath_again secondSession_fs hsecond

theorem txtFile_loadable : Loadable thirdSession.kernel.fs txtFile
    thirdSession.kernel.nextAvailableFileVirtualAddress := by
  obtain ⟨-, -, -, -, -, -, -, hsize, hextents⟩ := txtPath_values
  obtain ⟨-, -, -, hfirst, -⟩ := writtenSession_values
  obtain ⟨-, -, -, hroom, -⟩ := thirdSession_values
  have hfour : thirdSession.kernel.fs.superblock.directExtentsPerInode = 4 := by
    rw [thirdSession_fs]
    exact hfirst
  refine ⟨fun k hk => ?_, fun i hi => ?_, fun i hi => ?_, ?_⟩
  · rw [hsize] at hk
    obtain rfl := Nat.lt_one_iff.mp (hk : k < 1)
    rw [hfour]
    exact ⟨0, 0, rfl⟩
  · exact (hextents i (hfour ▸ hi)).1.trans (by decide)
  · exact (hextents i (hfour ▸ hi)).2.trans_lt (by decide)
  · rw [hfour]
    exact hroom

theorem txtPath_typable : Typable zeroExt thirdSession.kernel txtPath txtFile := by
  obtain ⟨-, -, hnext, -, helement, hstandard, hfree⟩ := thirdSession_values
  exact
    { way := txtPath_way thirdSession_fs
      found := (congrArg (fun s => Fs.inodeFromPath Fs.quietEnv s txtPath) thirdSession_fs).trans
        txtPath_found
      exist := ne_of_eq_of_ne txtFile_fields.1 (by decide)
      element := Or.inl ⟨0, by decide, helement.trans txtFile_fields.1.symm⟩
      standard := hstandard
      descriptor := ⟨3, by decide, hfree⟩
      load := txtFile_loadable
      address := hnext
      size := txtFile_fields.2 ▸ (by decide : (3 : Nat) < 2147483648) }

end AmateurOs.Shell
