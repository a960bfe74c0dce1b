/-
# Strings, directories and paths

The C strings of the kernel, the search of one directory (`inode_for_name_in_directory`) and
the walk along a path (`inode_from_path`, `parent_inode_from_path`, `last_name_in_path`).

* A `CString` is a list of characters other than NUL together with the bytes behind the
  terminator, which some comparisons reach: `memcmp` compares one byte more than it is asked
  to, and the test for `..` looks at the third character after it.
* A name of a directory entry matches when it begins with the name looked for: `strncmp` is
  called with the length of the latter.
* When no entry of a block matches, the loop of the search leaves `dir_entry` one past the end,
  and that entry is looked at too.
-/
import Mathlib.Data.List.DropRight
import AmateurOs.Fs.Disk

namespace AmateurOs.Fs

open AmateurOs.Lib

/-! ## 1. Strings -/

/-- The bytes of a string in memory: its characters, the terminator, and what is `after` it. -/
def cstr (chars : List UInt8) (after : Bytes) : Bytes := fun k =>
  if h : k < chars.length then chars[k]
  else if k = chars.length then 0
  else after (k - chars.length - 1)

/-- A string and the bytes behind it. -/
structure CString where
  chars : List UInt8
  nonzero : ∀ c ∈ chars, c ≠ 0
  after : Bytes

/-- The bytes of a string. -/
def CString.bytes (s : CString) : Bytes := cstr s.chars s.after

/-- `'/'`. -/
def slash : UInt8 := 47

/-- `'.'`. -/
def dot : UInt8 := 46

/-- The loop of `strncmp`: whether the result is 0. -/
def strncmpLoop (string1 string2 : Bytes) : Nat → Nat → Bool
  | 0, _ => true
  | len + 1, k =>
    if string1 k ≠ 0 ∧ string2 k ≠ 0 ∧ string1 k = string2 k then
      strncmpLoop string1 string2 len (k + 1)
    else string1 k == string2 k

/-- `strncmp(string1, string2, len) == 0`; `len` is a `uint8_t`. -/
def strncmpEq (string1 string2 : Bytes) (len : Nat) : Bool :=
  strncmpLoop string1 string2 (u8 len) 0

/-- The loop of `memcmp`: whether the result is 0.  The byte after the last one compared decides
when all are equal. -/
def memcmpLoop (s1 s2 : Bytes) : Nat → Nat → Bool
  | 0, k => s1 k == s2 k
  | len + 1, k => if s1 k = s2 k then memcmpLoop s1 s2 len (k + 1) else false

/-- `memcmp(s1, s2, len) == 0`. -/
def memcmpEq (s1 s2 : Bytes) (len : Nat) : Bool :=
  if len = 0 then true else memcmpLoop s1 s2 len 0

/-- `strcpy(dst, src)` at address `p`. -/
def strcpyAt (m : Bytes) (p : Nat) (src : List UInt8) : Bytes :=
  blit m p (src.length + 1) (cstr src fun _ => 0)

theorem cstr_lt {chars : List UInt8} {after : Bytes} {k : Nat} (h : k < chars.length) :
    cstr chars after k = chars[k] := dif_pos h

theorem cstr_length {chars : List UInt8} {after : Bytes} : cstr chars after chars.length = 0 := by
  unfold cstr
  rw [dif_neg (Nat.lt_irrefl _), if_pos rfl]

/-- The loop compares its characters one by one, as long as the second string has them. -/
theorem strncmpLoop_iff {string1 string2 : Bytes} : ∀ (len k : Nat),
    (∀ j < len, string2 (k + j) ≠ 0) →
    (strncmpLoop string1 string2 len k = true ↔
      ∀ j < len, string1 (k + j) = string2 (k + j)) := by
  intro len
  induction len with
  | zero =>
    intro k _
    exact ⟨fun _ j hj => absurd hj (Nat.not_lt_zero j), fun _ => rfl⟩
  | succ len ih =>
    intro k hne
    have hnext := ih (k + 1) fun j hj => by
      rw [(by omega : k + 1 + j = k + (j + 1))]
      exact hne (j + 1) (Nat.succ_lt_succ hj)
    have h0 : string2 k ≠ 0 := hne 0 (Nat.succ_pos len)
    unfold strncmpLoop
    by_cases heq : string1 k = string2 k
    · rw [if_pos ⟨heq ▸ h0, h0, heq⟩, hnext]
      constructor
      · intro h j hj
        cases j with
        | zero => exact heq
        | succ j =>
          rw [(by omega : k + (j + 1) = k + 1 + j)]
          exact h j (Nat.lt_of_succ_lt_succ hj)
      · intro h j hj
        rw [(by omega : k + 1 + j = k + (j + 1))]
        exact h (j + 1) (Nat.succ_lt_succ hj)
    · rw [if_neg fun h => heq h.2.2]
      exact ⟨fun h => absurd (eq_of_beq h) heq, fun h => absurd (h 0 (Nat.succ_pos len)) heq⟩

/-- **`strncmp` with the length of the second string** compares the characters below that
length, reduced to a `uint8_t`. -/
theorem strncmpEq_iff {string1 after : Bytes} {chars : List UInt8}
    (hne : ∀ c ∈ chars, c ≠ 0) :
    strncmpEq string1 (cstr chars after) chars.length = true ↔
      ∀ k < u8 chars.length, string1 k = cstr chars after k := by
  have hlen : u8 chars.length ≤ chars.length := Nat.mod_le _ _
  unfold strncmpEq
  rw [strncmpLoop_iff _ _ fun j hj => ?_]
  · simp only [Nat.zero_add]
  · rw [Nat.zero_add, cstr_lt (Nat.lt_of_lt_of_le hj hlen)]
    exact hne _ (List.getElem_mem _)

/-! ## 2. Directory entries -/

/-- `dir_entry->id` for entry `count` of `temp_block`. -/
def entryId (tempBlock : Bytes) (count : Nat) : Nat := le32 tempBlock (count * dirEntrySize)

/-- `dir_entry->name`, with the bytes that follow it. -/
def entryName (tempBlock : Bytes) (count : Nat) : Bytes :=
  slice tempBlock (count * dirEntrySize + 4)

/-- Whether the name of an entry begins with `fileName`. -/
def entryMatches (tempBlock : Bytes) (fileName : List UInt8) (count : Nat) : Bool :=
  strncmpEq (entryName tempBlock count) (cstr fileName fun _ => 0) fileName.length

/-- An entry matches when its name begins with the one looked for, character by character. -/
theorem entryMatches_begins {tempBlock : Bytes} {name : List UInt8} {count : Nat}
    (hnonzero : ∀ c ∈ name, c ≠ 0) (hshort : name.length < 256) :
    entryMatches tempBlock name count = true ↔
      ∀ k (hk : k < name.length), entryName tempBlock count k = name[k] := by
  have hlen : u8 name.length = name.length := Nat.mod_eq_of_lt hshort
  unfold entryMatches
  rw [strncmpEq_iff hnonzero, hlen]
  constructor
  · intro hall k hk
    rw [← cstr_lt hk]
    exact hall k hk
  · intro hall k hk
    rw [cstr_lt hk]
    exact hall k hk

/-- The entry past the end of `temp_block`. -/
theorem entryMatches_past {disk after : Bytes} {block : Nat} {name : List UInt8} :
    entryMatches (readBlock disk after block) name dirEntriesPerBlock =
      entryMatches after name 0 := by
  have hname : entryName (readBlock disk after block) dirEntriesPerBlock = entryName after 0 := by
    funext k
    unfold entryName dirEntriesPerBlock dirEntrySize
    have haddr : 64 * 64 + 4 + k - 4096 = 0 * 64 + 4 + k := by omega
    rw [slice_apply, slice_apply, readBlock_out (by omega), haddr]
  unfold entryMatches
  rw [hname]

/-- The entry at which the scan of a block stops: the first that matches, or the one past the
end. -/
def scanNames (tempBlock : Bytes) (fileName : List UInt8) : Nat :=
  ((List.range dirEntriesPerBlock).find? (entryMatches tempBlock fileName)).getD dirEntriesPerBlock

/-- The inode number found in a block, if any. -/
def findInBlock (tempBlock : Bytes) (fileName : List UInt8) : Option Nat :=
  let count := scanNames tempBlock fileName
  if entryId tempBlock count = 0 ∨ !entryMatches tempBlock fileName count then none
  else some (entryId tempBlock count)

/-- The block numbers from `first` to before `first + length`, in 32-bit arithmetic. -/
def extentBlocks (inode : Inode) (i : Nat) : List Nat :=
  List.range' (inode.extentFirst i)
    (u32 (inode.extentFirst i + inode.extentLength i) - inode.extentFirst i)

/-- The blocks that `inode_for_name_in_directory` looks at: those of the direct extents in
order, as many as the size says. -/
def searchedBlocks (sb : Superblock) (directory : Inode) : List Nat :=
  ((List.range sb.directExtentsPerInode).flatMap (extentBlocks directory)).take
    (bytesToBlocks directory.sizeBytes)

/-- `inode_for_name_in_directory`. -/
def inodeForNameInDirectory (env : Env) (s : State) (directory : Inode) (fileName : List UInt8) :
    Inode :=
  let found := (searchedBlocks s.superblock directory).findSome? fun nextBlock =>
    findInBlock (readBlock s.disk env.afterTempBlock nextBlock) fileName
  match found with
  | some id => loadInode s.disk s.superblock id
  | none => noInode

/-! ## 3. Paths -/

/-- One turn of the loop of `inode_from_path` at a position that is not the end: the inode and
the characters left. -/
def walkTurn (env : Env) (s : State) (after : Bytes) (current : Inode) (pos : List UInt8) :
    Inode × List UInt8 :=
  let at' := cstr pos after
  if at' 0 = slash then (current, pos.drop 1)
  else if at' 0 = dot ∧ (at' 1 = 0 ∨ at' 1 = slash) then (current, pos.drop 1)
  else if strncmpEq at' (cstr [dot, dot] fun _ => 0) 2 ∧ (at' 3 = 0 ∨ at' 3 = slash) then
    (inodeForNameInDirectory env s current [dot, dot], pos.drop 2)
  else
    let name := pos.takeWhile (· ≠ slash)
    (inodeForNameInDirectory env s current name, pos.dropWhile (· ≠ slash))

/-- The loop of `inode_from_path`; every turn consumes a character. -/
def walk (env : Env) (s : State) (after : Bytes) : Nat → Inode → List UInt8 → Inode
  | 0, current, _ => current
  | fuel + 1, current, pos =>
    if pos = [] then current
    else
      let turn := walkTurn env s after current pos
      walk env s after fuel turn.1 turn.2

/-- `inode_from_path`. -/
def inodeFromPath (env : Env) (s : State) (startingPath : CString) : Inode :=
  let pos := startingPath.chars
  if pos.head? = some slash then
    walk env s startingPath.after pos.length s.rootInode (pos.drop 1)
  else walk env s startingPath.after pos.length s.currentDirInode pos

/-- `last_name_in_path`: the characters after the last slash. -/
def lastNameInPath (path : CString) : List UInt8 := path.chars.rtakeWhile (· ≠ slash)

/-- The path cut at its last slash: the last name is behind the terminator. -/
def CString.cut (path : CString) : CString where
  chars := (path.chars.rdropWhile (· ≠ slash)).dropLast
  nonzero := fun c hc =>
    path.nonzero c ((List.rdropWhile_prefix _ _).subset (List.dropLast_subset _ hc))
  after := cstr (lastNameInPath path) path.after

/-- `parent_inode_from_path`. -/
def parentInodeFromPath (env : Env) (s : State) (startingPath : CString) : Inode :=
  if slash ∉ startingPath.chars then s.currentDirInode
  else if startingPath.cut.chars.length = 0 then inodeFromId s 1
  else inodeFromPath env s startingPath.cut

end AmateurOs.Fs
