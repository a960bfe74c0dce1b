/-
# The listing of a directory

`print_dir` of `include/fs/fs_impl.h` goes through the blocks of a directory until it has seen as
many used entries as the size of the directory stands for, loads the inode of each and prints a
line.

* On a disk in order the count is exact: no entry is left out, and none is printed that is not a
  name of the directory.
* The columns of a line are the fields of two formats of `printf`.
-/
import AmateurOs.Terminal.Numbers
import AmateurOs.Fs.Refinement

namespace AmateurOs.Fs

open AmateurOs.Lib AmateurOs.Terminal

/-! ## 1. `print_dir` -/

/-- `dir_entry->name` as a string, which ends at a terminator or with `temp_block`. -/
def entryString (tempBlock : Bytes) (count : Nat) : List UInt8 :=
  ((List.range (fsBlockSize - dirEntrySize * count - 4)).map
    (entryName tempBlock count)).takeWhile (· ≠ 0)

/-- What the loop over the entries of a block prints from `count` on, as numbers and names, and
`num_entries` after it. -/
def listEntries (tempBlock : Bytes) (totalEntries : Nat) :
    Nat → Nat → Nat → List (Nat × List UInt8) × Nat
  | 0, _, numEntries => ([], numEntries)
  | fuel + 1, count, numEntries =>
    if numEntries < totalEntries then
      if entryId tempBlock count ≠ 0 then
        let (rows, numEntries) := listEntries tempBlock totalEntries fuel (count + 1)
          (numEntries + 1)
        ((entryId tempBlock count, entryString tempBlock count) :: rows, numEntries)
      else listEntries tempBlock totalEntries fuel (count + 1) numEntries
    else ([], numEntries)

/-- The loop over the blocks. -/
def listBlocks (env : Env) (s : State) (totalEntries : Nat) :
    List Nat → Nat → List (Nat × List UInt8)
  | [], _ => []
  | j :: blocks, numEntries =>
    let (rows, numEntries) := listEntries (readBlock s.disk env.afterTempBlock j) totalEntries
      dirEntriesPerBlock 0 numEntries
    rows ++ listBlocks env s totalEntries blocks numEntries

/-- What a line shows: the name of an entry and the inode of its number. -/
structure Listed where
  name : List UInt8
  inode : Inode

/-- `print_dir`: the lines it prints, or `none` where it returns false and prints nothing.  The
path is `current_dir` without an argument, and may be null. -/
def printDir (env : Env) (s : State) (path : Option CString) : Option (List Listed) :=
  match path with
  | none => none
  | some path =>
    let dir := inodeFromPath env s path
    if dir.id = 0 then none
    else if dir.type ≠ filetypeDir then none
    else some ((listBlocks env s (dir.sizeBytes / dirEntrySize)
      (directBlocks s.superblock dir) 0).map fun e =>
        ⟨e.2, loadInode s.disk s.superblock e.1⟩)

/-! ## 2. The text of a line -/

/-- The format of the name and the kind of a file. -/
def nameFormat : List UInt8 := text "\r\n%-20s%-5s "

/-- The format of the other columns. -/
def detailFormat : List UInt8 := text "%-10d %.2d-%.2d-%d %.2d:%.2d:%.2d  %d"

/-- The string for the kind of a file. -/
def kind (inode : Inode) : List UInt8 := if inode.type = filetypeDir then text "[DIR]" else []

/-- The arguments of the first `printf`: two strings, at addresses that are not null. -/
def nameStack (row : Listed) : Stack where
  args k := if k = 0 then 1 else 2
  strings p := if p = 1 then row.name else kind row.inode
  below _ := 0

/-- The arguments of the second `printf`: the size, month, day, year, hour, minute, second and
`ref_count`; `below` is what the stack has below the table of digits. -/
def detailStack (below : Nat → UInt8) (inode : Inode) : Stack where
  args k := UInt32.ofNat ([inode.sizeBytes, inode.get8 17, inode.get8 16, inode.get16 18,
    inode.get8 15, inode.get8 14, inode.get8 13, inode.refCount].getD k 0)
  strings _ := []
  below := below

/-- The text of a line. -/
def Listed.text (below : Nat → UInt8) (row : Listed) : Option (List UInt8) := do
  let name ← printf (nameStack row) nameFormat
  let detail ← printf (detailStack below row.inode) detailFormat
  return name ++ detail

/-- A string in a field, adjusted to the left. -/
def field (width : Nat) (s : List UInt8) : List UInt8 :=
  s ++ List.replicate (width - s.length) (char ' ')

/-- A string in a field of a width. -/
theorem convert_string (e : Stack) (width arg : Nat) (h : (e.args arg).toNat ≠ 0) :
    convert e ⟨false, true, width, 0⟩ arg (char 's') =
      (field width (e.strings (e.args arg).toNat), 1) := by
  have hconvert : convert e ⟨false, true, width, 0⟩ arg (char 's') =
      ([] ++ (if (e.args arg).toNat = 0 then text "(null)" else e.strings (e.args arg).toNat) ++
        spaces ((width : Int) - (if (e.args arg).toNat = 0 then text "(null)"
          else e.strings (e.args arg).toNat).length), 1) := rfl
  rw [hconvert, if_neg h, List.nil_append]
  simp [field, spaces]

theorem printf_nameFormat (row : Listed) : printf (nameStack row) nameFormat =
    some (char '\r' :: char '\n' :: (field 20 row.name ++ (field 5 (kind row.inode) ++
      [char ' ']))) := by
  have hformat : nameFormat = [13, 10, 37, 45, 50, 48, 115, 37, 45, 53, 115, 32] := by decide
  have hpercent : char '%' = 37 := by decide
  have hname : ∀ rest, readSpec (45 :: 50 :: 48 :: 115 :: rest) =
      (⟨false, true, 20, 0⟩, 115 :: rest) := fun _ => rfl
  have hkind : ∀ rest, readSpec (45 :: 53 :: 115 :: rest) =
      (⟨false, true, 5, 0⟩, 115 :: rest) := fun _ => rfl
  have htext : char '\r' = 13 ∧ char '\n' = 10 ∧ char ' ' = 32 := by decide
  have hconvert : convert (nameStack row) ⟨false, true, 20, 0⟩ 0 115 = (field 20 row.name, 1) :=
    convert_string (nameStack row) 20 0 Nat.one_ne_zero
  have hconvert' : convert (nameStack row) ⟨false, true, 5, 0⟩ 1 115 =
      (field 5 (kind row.inode), 1) := convert_string (nameStack row) 5 1 (Nat.succ_ne_zero 1)
  simp [printf, printfLoop, hformat, hpercent, hname, hkind, hconvert, hconvert', htext]

theorem printf_detailFormat (below : Nat → UInt8) (inode : Inode) :
    ∃ detail, printf (detailStack below inode) detailFormat = some detail := ⟨_, rfl⟩

/-- **The text of a line**: the name and the kind in their fields, then the other columns. -/
theorem Listed.text_eq (below : Nat → UInt8) (row : Listed) :
    ∃ detail, printf (detailStack below row.inode) detailFormat = some detail ∧
      row.text below = some (char '\r' :: char '\n' :: (field 20 row.name ++
        (field 5 (kind row.inode) ++ char ' ' :: detail))) := by
  obtain ⟨detail, hdetail⟩ := printf_detailFormat below row.inode
  refine ⟨detail, hdetail, ?_⟩
  simp [Listed.text, hdetail, printf_nameFormat]

/-! ## 3. The count -/

/-- The used entries of a block from `count` on. -/
def usedFrom (tempBlock : Bytes) (fuel count : Nat) : List (Nat × List UInt8) :=
  (List.range' count fuel).filterMap fun n =>
    if entryId tempBlock n = 0 then none else some (entryId tempBlock n, entryString tempBlock n)

/-- **The loop over a block prints all used entries**, if it may print that many: it stops early
only where no more are left. -/
theorem listEntries_eq {tempBlock : Bytes} {total : Nat} : ∀ (fuel count num : Nat),
    num + (usedFrom tempBlock fuel count).length ≤ total →
      listEntries tempBlock total fuel count num =
        (usedFrom tempBlock fuel count, num + (usedFrom tempBlock fuel count).length) := by
  intro fuel
  induction fuel with
  | zero => exact fun _ _ _ => rfl
  | succ fuel ih =>
    intro count num hle
    have hused : usedFrom tempBlock (fuel + 1) count =
        if entryId tempBlock count = 0 then usedFrom tempBlock fuel (count + 1)
        else (entryId tempBlock count, entryString tempBlock count) ::
          usedFrom tempBlock fuel (count + 1) := by
      simp only [usedFrom, List.range'_succ, List.filterMap_cons]
      split_ifs with hzero <;> rfl
    rw [hused] at hle ⊢
    by_cases hmore : num < total
    · rw [listEntries, if_pos hmore]
      by_cases hzero : entryId tempBlock count = 0
      · rw [if_pos hzero] at hle ⊢
        rw [if_neg (not_not.mpr hzero)]
        exact ih (count + 1) num hle
      · rw [if_neg hzero] at hle ⊢
        rw [List.length_cons, ← Nat.add_assoc, Nat.add_right_comm] at hle
        rw [if_pos hzero, ih (count + 1) (num + 1) hle]
        simp [Nat.add_assoc, Nat.add_comm 1]
    · -- nothing is left
      have hempty : (if entryId tempBlock count = 0 then usedFrom tempBlock fuel (count + 1)
          else (entryId tempBlock count, entryString tempBlock count) ::
            usedFrom tempBlock fuel (count + 1)) = [] :=
        List.length_eq_zero_iff.mp (by omega)
      rw [hempty, listEntries, if_neg hmore]
      rfl

theorem listBlocks_eq {env : Env} {s : State} {total : Nat} : ∀ (blocks : List Nat) (num : Nat),
    num + (blocks.flatMap fun j =>
      usedFrom (readBlock s.disk env.afterTempBlock j) dirEntriesPerBlock 0).length ≤ total →
    listBlocks env s total blocks num = blocks.flatMap fun j =>
      usedFrom (readBlock s.disk env.afterTempBlock j) dirEntriesPerBlock 0 := by
  intro blocks
  induction blocks with
  | nil => exact fun _ _ => rfl
  | cons j blocks ih =>
    intro num hle
    rw [List.flatMap_cons, List.length_append, ← Nat.add_assoc] at hle
    rw [listBlocks, listEntries_eq _ _ _ (Nat.le_trans (Nat.le_add_right _ _) hle),
      List.flatMap_cons]
    exact congrArg _ (ih _ hle)

/-- A name that ends inside its entry. -/
theorem entryString_eq {tempBlock : Bytes} {count : Nat} (hcount : count < dirEntriesPerBlock)
    (hends : NameEnds tempBlock count) : entryString tempBlock count = entryText tempBlock count := by
  obtain ⟨k, hk, hzero⟩ := hends
  have hroom : fsBlockSize - dirEntrySize * count - 4 =
      60 + (fsBlockSize - dirEntrySize * count - 64) := by
    unfold fsBlockSize dirEntrySize dirEntriesPerBlock at *
    omega
  have hstops : ¬ ((List.range 60).map (entryName tempBlock count)).takeWhile (· ≠ 0) =
      (List.range 60).map (entryName tempBlock count) := by
    intro hall
    have hmem : (0 : UInt8) ∈ (List.range 60).map (entryName tempBlock count) :=
      List.mem_map.mpr ⟨k, List.mem_range.mpr hk, hzero⟩
    simpa using List.takeWhile_eq_self_iff.mp hall 0 hmem
  rw [entryString, hroom, List.range_add, List.map_append, List.takeWhile_append, if_neg]
  · rfl
  · intro hlength
    exact hstops ((List.takeWhile_prefix _).eq_of_length hlength)

/-! ## 4. Disks in order -/

section

variable {env : Env} {s : State} (h : Orderly s) {d : Inode} (hd : OnDisk s d)
  (hdir : d.type = filetypeDir)

include h hd hdir

/-- The used entries of a block, as they are read. -/
theorem Orderly.usedFrom_eq {j : Nat} (hj : j ∈ directBlocks s.superblock d) :
    usedFrom (readBlock s.disk env.afterTempBlock j) dirEntriesPerBlock 0 =
      usedEntries (s.volume.content j) := by
  have horder := h.order d.id (hd.isDir hdir)
  rw [hd.2] at horder
  unfold usedFrom usedEntries
  rw [List.range_eq_range']
  refine List.filterMap_congr fun n hn => ?_
  have hlt : n < dirEntriesPerBlock := by simpa using hn
  obtain ⟨hid, hname⟩ := h.sameEntries hd hj env.afterTempBlock n hlt
  have hends : NameEnds (readBlock s.disk env.afterTempBlock j) n := by
    obtain ⟨k, hk, hzero⟩ := (horder.slots j hj n hlt).ends
    exact ⟨k, hk, (hname k hk).trans hzero⟩
  have htext : entryText (readBlock s.disk env.afterTempBlock j) n =
      entryText (s.volume.content j) n := by
    unfold entryText
    congr 1
    exact List.map_congr_left fun k hk => hname k (List.mem_range.mp hk)
  rw [hid, entryString_eq hlt hends, htext]

/-- **All entries of a directory are printed**, and nothing else. -/
theorem Orderly.listBlocks :
    Fs.listBlocks env s (d.sizeBytes / dirEntrySize) (directBlocks s.superblock d) 0 =
      dirList s d := by
  have hblocks : (directBlocks s.superblock d).flatMap (fun j =>
      usedFrom (readBlock s.disk env.afterTempBlock j) dirEntriesPerBlock 0) = dirList s d :=
    List.flatMap_congr fun j hj => h.usedFrom_eq hd hdir hj
  have horder := h.order d.id (hd.isDir hdir)
  rw [hd.2] at horder
  have hcard : (dirList s d).length = (dirEntries s d).card := by
    rw [← coe_dirList]
    rfl
  have htotal : d.sizeBytes / dirEntrySize = (dirEntries s d).card := by
    rw [horder.size]
    exact Nat.mul_div_cancel_left _ (by decide)
  rw [listBlocks_eq _ _ (by rw [hblocks, htotal, hcard, Nat.zero_add]), hblocks]

/-- The lines that are printed for a directory. -/
theorem Orderly.listed {path : CString} (hpath : Fs.inodeFromPath env s path = d) :
    printDir env s (some path) =
      some ((dirList s d).map fun e => ⟨e.2, s.volume.inode e.1⟩) := by
  simp only [printDir, hpath]
  rw [if_neg hd.1, if_neg (not_not.mpr hdir), h.listBlocks hd hdir]
  refine congrArg some (List.map_congr_left fun e he => ?_)
  have hlists := (h.order d.id (hd.isDir hdir)).lists (hd.isDir hdir)
  rw [hd.2, ← coe_dirList] at hlists
  have hin : (space s).names d.id e.2 = some e.1 := (hlists.mem e.1 e.2).mp he
  rw [← volume_loadInode h.sound (h.carries hin).lt]
  rfl

end

/-- **The listing of a directory**: a line for every name, with the inode of its number, and as many
as the size stands for. -/
structure FullListing (s : State) (d : Nat) (rows : List Listed) : Prop where
  once : (rows.map Listed.name).Nodup
  lines : ∀ row, row ∈ rows ↔
    ∃ n, (space s).names d row.name = some n ∧ row.inode = s.volume.inode n
  count : (s.volume.inode d).sizeBytes = dirEntrySize * rows.length

theorem Orderly.listing {s : State} (h : Orderly s) {d : Nat} (hdir : IsDir s d) :
    FullListing s d ((dirList s (s.volume.inode d)).map fun e => ⟨e.2, s.volume.inode e.1⟩) := by
  have horder := h.order d hdir
  have hlists := horder.lists hdir
  have hsize := horder.size
  rw [← coe_dirList] at hlists hsize
  refine ⟨?_, fun row => ?_, ?_⟩
  · rw [List.map_map]
    exact hlists.once
  · constructor
    · intro hrow
      obtain ⟨e, he, rfl⟩ := List.mem_map.mp hrow
      exact ⟨e.1, (hlists.mem e.1 e.2).mp he, rfl⟩
    · rintro ⟨n, hn, hinode⟩
      refine List.mem_map.mpr ⟨(n, row.name), (hlists.mem n row.name).mpr hn, ?_⟩
      rw [← hinode]
  · rw [hsize, List.length_map]
    rfl

end AmateurOs.Fs
