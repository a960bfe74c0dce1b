/-
# The kernel finds what `make_disk` wrote

`inode_from_path` on an image: every path of the tree leads to the inode that was written for it
(`kernel_finds`).

The search of one directory goes through its blocks and their entries; an entry matches when its
name begins with the one looked for, so in a directory whose names do not begin with each other
only the right one does (`Listed.search`).  The padding matches nothing, because a name has a first
character; the entry past `temp_block` is excluded by hypothesis.  The induction on the tree
follows a path down from the root directory (`Node.found`).
-/
import Mathlib.Data.List.Nodup
import AmateurOs.Fs.Components
import AmateurOs.MakeDisk.Stored

namespace AmateurOs.MakeDisk

open AmateurOs.Lib AmateurOs.Fs
open AmateurOs.Terminal (text)

/-! ## 1. Entries that match -/

theorem entryMatches_iff {tempBlock : Bytes} {name : List UInt8} {count : Nat} (h : NameOk name) :
    entryMatches tempBlock name count = true ↔
      ∀ k (hk : k < name.length), tempBlock (count * dirEntrySize + 4 + k) = name[k] := by
  have hshort := h.short
  exact entryMatches_begins h.nonzero (by omega)

/-- The name of an entry begins with the characters found there. -/
theorem HasEntry.begins {bytes : Bytes} {p id : Nat} {name name' : List UInt8}
    (h : HasEntry bytes p id name') (hnz : ∀ c ∈ name, c ≠ 0)
    (hchars : ∀ k (hk : k < name.length), bytes (p + 4 + k) = name[k]) : name <+: name' := by
  have hle : name.length ≤ name'.length := by
    by_contra hlt
    have hk : name'.length < name.length := by omega
    have hend : name[name'.length] = 0 :=
      (hchars _ hk).symm.trans ((h.name _ (Nat.le_refl _)).trans cstr_length)
    exact hnz _ (List.getElem_mem hk) hend
  refine List.prefix_iff_getElem.mpr ⟨hle, fun k hk => ?_⟩
  rw [← hchars k hk, h.name k (by omega), cstr_lt]

/-! ## 2. The search of a listed directory -/

section Search

variable {disk after : Bytes} {first blocks : Nat} {listing : List (Nat × List UInt8)}
  {name : List UInt8}

/-- Only entries of the listing match. -/
theorem Listed.matching (h : Listed disk first blocks listing) (hname : NameOk name)
    (hfit : first + blocks ≤ maxBlocks) {t count : Nat} (ht : t < blocks)
    (hcount : count < dirEntriesPerBlock)
    (hmatch : entryMatches (readBlock disk after (first + t)) name count = true) :
    ∃ x, listing[t * dirEntriesPerBlock + count]? = some x ∧ name <+: x.2 := by
  have hshort := h.fits
  have hshortName := hname.short
  rw [maxBlocks_eq] at hfit
  unfold dirEntriesPerBlock at *
  have hblock : first + t < diskBlocks := by
    unfold diskBlocks
    omega
  have hchars : ∀ k (hk : k < name.length),
      disk (first * fsBlockSize + (t * 64 + count) * dirEntrySize + 4 + k) = name[k] := by
    intro k hk
    rw [← (entryMatches_iff hname).mp hmatch k hk]
    unfold dirEntrySize fsBlockSize
    have haddr : (first + t) * 4096 + (count * 64 + 4 + k) =
        first * 4096 + (t * 64 + count) * 64 + 4 + k := by omega
    rw [readBlock_in hblock (by omega), haddr]
  rcases hx : listing[t * 64 + count]? with - | x
  · have hpos : 0 < name.length := List.length_pos_of_ne_nil hname.nonempty
    have hlen := List.getElem?_eq_none_iff.mp hx
    have hzero : name[0] = 0 := by
      rw [← hchars 0 hpos]
      refine h.padding _ ?_ ?_ <;> unfold dirEntrySize fsBlockSize at * <;> omega
    exact absurd hzero (hname.nonzero _ (List.getElem_mem _))
  · exact ⟨x, rfl, (h.entries _ x hx).begins hname.nonzero hchars⟩

/-- An entry of the listing, as the search reads it. -/
theorem Listed.entry (h : Listed disk first blocks listing) (hname : NameOk name)
    (hfit : first + blocks ≤ maxBlocks) {t count id : Nat} (ht : t < blocks)
    (hcount : count < dirEntriesPerBlock)
    (hx : listing[t * dirEntriesPerBlock + count]? = some (id, name)) :
    entryMatches (readBlock disk after (first + t)) name count = true ∧
      entryId (readBlock disk after (first + t)) count = id := by
  have hentry : HasEntry disk (first * fsBlockSize + (t * dirEntriesPerBlock + count) *
    dirEntrySize) id name := h.entries _ _ hx
  have hshort := hname.short
  rw [maxBlocks_eq] at hfit
  have hblock : first + t < diskBlocks := by
    unfold diskBlocks
    omega
  have hread : ∀ k < 64, readBlock disk after (first + t) (count * dirEntrySize + k) =
      disk (first * fsBlockSize + (t * dirEntriesPerBlock + count) * dirEntrySize + k) := by
    intro k hk
    unfold dirEntrySize fsBlockSize dirEntriesPerBlock at *
    have haddr : (first + t) * 4096 + (count * 64 + k) =
        first * 4096 + (t * 64 + count) * 64 + k := by omega
    rw [readBlock_in hblock (by omega), haddr]
  constructor
  · rw [entryMatches_iff hname]
    intro k hk
    rw [Nat.add_assoc, hread _ (by omega), ← Nat.add_assoc, hentry.name k (by omega), cstr_lt hk]
  · rw [← hentry.id]
    exact le32_congr fun k hk => hread k (by omega)

/-- **The search of a listed directory** finds the number of the only entry that matches. -/
theorem Listed.search (h : Listed disk first blocks listing) (hname : NameOk name)
    (hfit : first + blocks ≤ maxBlocks) (hquiet : entryMatches after name 0 = false) {j id : Nat}
    (hj : listing[j]? = some (id, name)) (hid : id ≠ 0)
    (honly : ∀ i x, listing[i]? = some x → name <+: x.2 → i = j) :
    ((List.range' first blocks).findSome? fun block =>
      findInBlock (readBlock disk after block) name) = some id := by
  have hfits := h.fits
  obtain ⟨hlt, -⟩ := List.getElem?_eq_some_iff.mp hj
  have ht : j / dirEntriesPerBlock < blocks := by
    unfold dirEntriesPerBlock dirEntrySize fsBlockSize at *
    omega
  have hcount : j % dirEntriesPerBlock < dirEntriesPerBlock := Nat.mod_lt _ (by decide)
  have hdiv : j / dirEntriesPerBlock * dirEntriesPerBlock + j % dirEntriesPerBlock = j :=
    Nat.div_add_mod' j _
  -- the blocks in front of the entry, the block with it, and the others
  have hsplit : List.range' first blocks = List.range' first (j / dirEntriesPerBlock) ++
      (first + j / dirEntriesPerBlock) :: List.range' (first + j / dirEntriesPerBlock + 1)
        (blocks - j / dirEntriesPerBlock - 1) := by
    rw [← List.range'_succ, List.range'_append_1]
    congr 1
    omega
  refine List.findSome?_eq_some_iff.mpr ⟨_, _, _, hsplit, ?_, fun block hblock => ?_⟩
  · obtain ⟨hmatch, hentryId⟩ := @Listed.entry disk after _ _ _ _ h hname hfit _ _ id ht hcount
      (by rw [hdiv]; exact hj)
    have hscan : scanNames (readBlock disk after (first + j / dirEntriesPerBlock)) name =
        j % dirEntriesPerBlock := by
      have hfind : (List.range dirEntriesPerBlock).find? (entryMatches (readBlock disk after
          (first + j / dirEntriesPerBlock)) name) = some (j % dirEntriesPerBlock) := by
        refine List.find?_range_eq_some.mpr ⟨hmatch, List.mem_range.mpr hcount, fun i hi => ?_⟩
        rw [Bool.not_eq_true', Bool.eq_false_iff]
        intro hmatch'
        obtain ⟨x, hx, hle⟩ := h.matching hname hfit ht (hi.trans hcount) hmatch'
        have := honly _ x hx hle
        omega
      unfold scanNames
      rw [hfind]
      rfl
    unfold findInBlock
    simp only
    rw [hscan, hentryId, hmatch]
    exact if_neg fun hor => hor.elim hid (by simp)
  · obtain ⟨hlo, hhi⟩ := List.mem_range'_1.mp hblock
    obtain ⟨t, rfl⟩ := Nat.exists_eq_add_of_le hlo
    have hscan : scanNames (readBlock disk after (first + t)) name = dirEntriesPerBlock := by
      have hfind : (List.range dirEntriesPerBlock).find? (entryMatches (readBlock disk after
          (first + t)) name) = none := by
        refine List.find?_range_eq_none.mpr fun i hi => ?_
        rw [Bool.not_eq_true', Bool.eq_false_iff]
        intro hmatch'
        obtain ⟨x, hx, hle⟩ := h.matching hname hfit (by omega) hi hmatch'
        have hsame := honly _ x hx hle
        have hbefore : t < j / dirEntriesPerBlock := by omega
        unfold dirEntriesPerBlock at *
        omega
      unfold scanNames
      rw [hfind]
      rfl
    unfold findInBlock
    simp only
    rw [hscan, entryMatches_past, hquiet]
    exact if_pos (Or.inr rfl)

end Search

/-! ## 3. Directories of the tree -/

/-- What an inode says of a file or directory. -/
structure IsInodeOf (i : Inode) (m : Made) : Prop where
  id : i.id = m.id
  type : i.type = m.type
  sizeBytes : i.sizeBytes = m.sizeBytes
  first : i.extentFirst 0 = m.first
  length : i.extentLength 0 = m.length
  others : ∀ k, 0 < k → k < 4 → i.extentLength k = 0

/-- What is made for a file or directory. -/
def Node.type : Node → Nat
  | .file _ => filetypeFile
  | .dir _ => filetypeDir

def Node.sizeBytes : Node → Nat
  | .file data => data.length
  | .dir entries => (entries.length + 2) * dirEntrySize

def Node.made (node : Node) (path : List (List UInt8)) (id first : Nat) : Made :=
  ⟨path, id, node.type, node.sizeBytes, first, bytesToBlocks node.sizeBytes⟩

theorem madeInode_is {m : Made} (hid : m.id < 4294967296) (htype : m.type < 256)
    (hlength : m.length = bytesToBlocks m.sizeBytes) (hfit : m.first + m.length ≤ maxBlocks) :
    IsInodeOf (madeInode m) m := by
  have hsize : u32 m.sizeBytes = m.sizeBytes :=
    u32_of_blocks (hlength ▸ (Nat.le_add_left _ _).trans hfit)
  rw [maxBlocks_eq] at hfit
  have hzero : ∀ off, noInode.get32 off = 0 := Packed.get32_zero
  have hpart : ∀ (i : Inode) (t : Packed 8) (off : Nat), off + 4 ≤ 13 ∨ 21 ≤ off →
      (i.setTimestamp t).get32 off = i.get32 off :=
    fun i t off h => (Packed.same_setPart (by omega)).get32
  have hpart8 : ∀ (i : Inode) (t : Packed 8), (i.setTimestamp t).get8 4 = i.get8 4 :=
    fun i t => (Packed.same_setPart (by omega)).get8
  unfold madeInode
  generalize (if m.type = filetypeDir then dirTimestamp else fileTimestamp) = t
  refine ⟨?_, ?_, ?_, ?_, ?_, fun k hk hk' => ?_⟩ <;>
    unfold Inode.setExtentLength Inode.setExtentFirst
  · unfold Inode.id
    rw [Packed.get32_set32_ne (by omega), Packed.get32_set32_ne (by omega), hpart _ _ _ (by omega)]
    unfold Inode.setSizeSectors Inode.setSizeBytes Inode.setType Inode.setId
    rw [Packed.get32_set32_ne (by omega), Packed.get32_set32_ne (by omega),
      Packed.get32_set8_ne (by omega), Packed.get32_set32 _ (by omega), u32_eq hid]
  · unfold Inode.type
    rw [Packed.get8_set32_ne (by omega), Packed.get8_set32_ne (by omega), hpart8]
    unfold Inode.setSizeSectors Inode.setSizeBytes Inode.setType
    rw [Packed.get8_set32_ne (by omega), Packed.get8_set32_ne (by omega),
      Packed.get8_set8 _ (by omega)]
    exact Nat.mod_eq_of_lt htype
  · unfold Inode.sizeBytes
    rw [Packed.get32_set32_ne (by omega), Packed.get32_set32_ne (by omega), hpart _ _ _ (by omega)]
    unfold Inode.setSizeSectors Inode.setSizeBytes
    rw [Packed.get32_set32_ne (by omega), Packed.get32_set32 _ (by omega), hsize]
  · unfold Inode.extentFirst
    rw [Packed.get32_set32_ne (by omega), Packed.get32_set32 _ (by omega), u32_eq (by omega)]
  · unfold Inode.extentLength
    rw [Packed.get32_set32 _ (by omega), u32_eq (by omega)]
  · unfold Inode.extentLength
    rw [Packed.get32_set32_ne (by omega), Packed.get32_set32_ne (by omega), hpart _ _ _ (by omega)]
    unfold Inode.setSizeSectors Inode.setSizeBytes Inode.setType Inode.setId
    rw [Packed.get32_set32_ne (by omega), Packed.get32_set32_ne (by omega),
      Packed.get32_set8_ne (by omega), Packed.get32_set32_ne (by omega), hzero]

/-- The blocks of a directory with one extent. -/
theorem IsInodeOf.searchedBlocks {d : Inode} {m : Made} (h : IsInodeOf d m)
    {sb : Superblock} (hextents : sb.directExtentsPerInode = 4)
    (hlength : m.length = bytesToBlocks m.sizeBytes) (hfit : m.first + m.length ≤ maxBlocks) :
    searchedBlocks sb d = List.range' m.first m.length := by
  rw [maxBlocks_eq] at hfit
  have hrange : List.range 4 = [0, 1, 2, 3] := rfl
  have hempty : ∀ k, 0 < k → k < 4 → extentBlocks d k = [] := by
    intro k hk hk'
    have hlt : d.extentFirst k < 4294967296 := Packed.get32_lt d _
    unfold extentBlocks
    rw [h.others k hk hk', Nat.add_zero, u32_eq hlt, Nat.sub_self]
    rfl
  have hblocks : extentBlocks d 0 = List.range' m.first m.length := by
    unfold extentBlocks
    rw [h.first, h.length, u32_eq (by omega), Nat.add_sub_cancel_left]
  unfold AmateurOs.Fs.searchedBlocks
  rw [hextents, hrange, h.sizeBytes, ← hlength]
  simp only [List.flatMap_cons, List.flatMap_nil, hblocks, hempty 1 (by decide) (by decide),
    hempty 2 (by decide) (by decide), hempty 3 (by decide) (by decide), List.append_nil]
  rw [List.take_of_length_le (by rw [List.length_range'])]

/-- The names of a directory can be looked for. -/
theorem Entries.Named.ok : ∀ (entries : Entries), entries.Named → ∀ name ∈ entries.names, NameOk name
  | .nil, _ => fun _ h => absurd h List.not_mem_nil
  | .cons _ _ rest, h => by
    unfold Entries.Named at h
    intro name hname
    rcases List.mem_cons.mp hname with rfl | hname
    · exact h.1
    · exact Entries.Named.ok rest h.2.2 name hname

/-- No entry has number 0. -/
theorem Entries.listing_ne : ∀ (entries : Entries) (next : Nat), 0 < next →
    ∀ x ∈ entries.listing next, x.1 ≠ 0
  | .nil, _ => fun _ _ h => absurd h List.not_mem_nil
  | .cons name node rest, next => by
    unfold Entries.listing childId
    intro hnext x hx
    rcases List.mem_cons.mp hx with rfl | hx
    · simp only
      split <;> omega
    · exact rest.listing_ne _ (by split <;> omega) x hx

/-- A name that does not begin with a dot is not looked up as `"."` or `".."`. -/
theorem NameOk.not_dots {name rest : List UInt8} (h : NameOk name) : ¬ name <+: dot :: rest := by
  rintro ⟨t, ht⟩
  cases name with
  | nil => exact h.nonempty rfl
  | cons c cs =>
    refine h.noDot ?_
    rw [List.cons_append, List.cons.injEq] at ht
    rw [List.head?_cons, ht.1]

/-- **The search of a directory of the tree.** -/
theorem directory_search {env : Env} {s : State} {d : Inode} {m : Made} {entries : Entries}
    {id parent next : Nat} (hd : IsInodeOf d m)
    (hextents : s.superblock.directExtentsPerInode = 4)
    (hlength : m.length = bytesToBlocks m.sizeBytes) (hfit : m.first + m.length ≤ maxBlocks)
    (hlisted : Listed s.disk m.first m.length
      ((id, [dot]) :: (parent, [dot, dot]) :: entries.listing next))
    (hnamed : (Node.dir entries).Named) (hnext : 0 < next) {x : Nat × List UInt8}
    (hx : x ∈ entries.listing next) (hquiet : entryMatches env.afterTempBlock x.2 0 = false) :
    inodeForNameInDirectory env s d x.2 = loadInode s.disk s.superblock x.1 := by
  unfold Node.Named at hnamed
  obtain ⟨hdistinct, hnames⟩ := hnamed
  rw [← entries.listing_names next] at hdistinct
  have hdistinct := List.pairwise_iff_getElem.mp (List.pairwise_map.mp hdistinct)
  have hok : NameOk x.2 := Entries.Named.ok entries hnames x.2
    (entries.listing_names next ▸ List.mem_map_of_mem hx)
  obtain ⟨j, hj, hjx⟩ := List.mem_iff_getElem.mp hx
  have hfound := @Listed.search s.disk env.afterTempBlock _ _ _ _ hlisted hok hfit hquiet (j + 2)
    x.1 (by simpa using List.getElem?_eq_some_iff.mpr ⟨hj, hjx⟩) (entries.listing_ne next hnext x hx)
    fun i y hy hle => by
      match i, hy with
      | 0, hy =>
        obtain rfl : (id, [dot]) = y := by simpa using hy
        exact absurd hle hok.not_dots
      | 1, hy =>
        obtain rfl : (parent, [dot, dot]) = y := by simpa using hy
        exact absurd hle hok.not_dots
      | i + 2, hy =>
        have hy : (entries.listing next)[i]? = some y := by simpa using hy
        obtain ⟨hi, hiy⟩ := List.getElem?_eq_some_iff.mp hy
        rw [← hjx, ← hiy] at hle
        rcases Nat.lt_trichotomy i j with hlt | rfl | hlt
        · exact absurd hle (hdistinct i j hi hj hlt).2
        · rfl
        · exact absurd hle (hdistinct j i hj hi hlt).1
  unfold inodeForNameInDirectory
  rw [hd.searchedBlocks hextents hlength hfit]
  simp only [hfound]

/-! ## 4. Following a path -/

/-- The bytes past `temp_block` spell no name of the path. -/
def Quiet (env : Env) (path : List (List UInt8)) : Prop :=
  ∀ c ∈ path, entryMatches env.afterTempBlock c 0 = false

theorem followAll_concat {env : Env} {s : State} {d : Inode} {path : List (List UInt8)}
    {name : List UInt8} (h : NameOk name) : followAll env s d (path ++ [name]) =
      inodeForNameInDirectory env s (followAll env s d path) name := by
  unfold followAll follow
  rw [List.foldl_append]
  refine if_neg ?_
  rintro (hnil | hdot)
  · exact h.nonempty hnil
  · exact h.noDot (hdot ▸ rfl)

mutual

/-- What is planned below a path has a longer one. -/
theorem Node.plan_path : ∀ (node : Node) (path : List (List UInt8)) (id first next : Nat),
    ∀ m ∈ node.plan path id first next, path <+: m.path
  | .file data, path, id, first, next => by
    unfold Node.plan
    intro m hm
    obtain rfl := List.mem_singleton.mp hm
    exact List.prefix_rfl
  | .dir entries, path, id, first, next => by
    unfold Node.plan
    intro m hm
    rcases List.mem_cons.mp hm with rfl | hm
    · exact List.prefix_rfl
    · exact entries.plan_path path _ next m hm

theorem Entries.plan_path : ∀ (entries : Entries) (path : List (List UInt8)) (first next : Nat),
    ∀ m ∈ entries.plan path first next, path <+: m.path
  | .nil, _, _, _ => by
    unfold Entries.plan
    exact fun _ h => absurd h List.not_mem_nil
  | .cons name node rest, path, first, next => by
    unfold Entries.plan
    intro m hm
    rcases List.mem_append.mp hm with hm | hm
    · exact (List.prefix_append path [name]).trans (node.plan_path _ _ _ _ m hm)
    · exact rest.plan_path path _ _ m hm

end

/-- The first inode of a plan. -/
theorem Node.made_mem (node : Node) (path : List (List UInt8)) (id first next : Nat) :
    node.made path id first ∈ node.plan path id first next := by
  cases node <;> unfold Node.plan Node.made Node.type Node.sizeBytes <;> exact List.mem_cons_self

theorem Node.Stored.inode {sb : Superblock} {bytes : Bytes} {node : Node}
    {path : List (List UInt8)} {id parent first next : Nat}
    (h : node.Stored sb bytes path id parent first next) :
    HasInode sb bytes (node.made path id first) := by
  cases node with
  | file data =>
    unfold Node.Stored at h
    exact h
  | dir entries =>
    unfold Node.Stored at h
    exact h.1

/-- The kernel reads the slot of an inode. -/
def Readable (sb : Superblock) (s : State) (m : Made) : Prop :=
  m.id < 4294967296 ∧ loadInode s.disk s.superblock m.id = Packed.load s.disk (inodePos sb m.id)

section Follow

variable {env : Env} {s : State} {sb : Superblock}
  (hextents : s.superblock.directExtentsPerInode = 4)

include hextents

mutual

/-- **Paths into a file or directory** lead to what was made, when its own does. -/
theorem Node.found : ∀ (node : Node) (path : List (List UInt8)) (id parent first next : Nat),
    0 < next → node.Named → node.Stored sb s.disk path id parent first next →
    first + node.blocks ≤ maxBlocks →
    (∀ m ∈ node.plan path id first next, Readable sb s m) →
    (Quiet env path → followAll env s s.rootInode path = madeInode (node.made path id first)) →
      ∀ m ∈ node.plan path id first next, Quiet env m.path →
        followAll env s s.rootInode m.path = madeInode m
  | .file data, path, id, parent, first, next => by
    unfold Node.plan
    intro _ _ _ _ _ hself m hm
    rw [List.mem_singleton.mp hm]
    exact hself
  | .dir entries, path, id, parent, first, next => by
    intro hnext hnamed hstored hblocks hread hself m hm
    unfold Node.plan at hm
    rcases List.mem_cons.mp hm with rfl | hm
    · exact hself
    have hreadSelf := hread _ ((Node.dir entries).made_mem path id first next)
    unfold Node.blocks at hblocks
    unfold Node.plan at hread
    have hnames := hnamed
    unfold Node.Stored at hstored
    unfold Node.Named at hnames
    obtain ⟨-, hlisted, htrees⟩ := hstored
    have hfit : first + bytesToBlocks ((entries.length + 2) * dirEntrySize) ≤ maxBlocks := by
      omega
    have hd : IsInodeOf (madeInode ((Node.dir entries).made path id first))
        ((Node.dir entries).made path id first) :=
      madeInode_is hreadSelf.1 (show filetypeDir < 256 by decide) rfl hfit
    refine entries.found path id _ next hnext hnames.2 htrees (by omega)
      (fun m hm => hread m (List.mem_cons_of_mem _ hm)) (fun x hx hquiet => ?_) m hm
    have hok : NameOk x.2 := Entries.Named.ok entries hnames.2 x.2
      (entries.listing_names next ▸ List.mem_map_of_mem hx)
    rw [followAll_concat hok, hself fun c hc => hquiet c (List.mem_append_left _ hc)]
    exact directory_search hd hextents rfl hfit hlisted hnamed hnext hx
      (hquiet _ (List.mem_append_right _ (List.mem_singleton_self _)))

/-- **Paths into the entries of a directory**, when the search finds each of them. -/
theorem Entries.found : ∀ (entries : Entries) (path : List (List UInt8)) (id first next : Nat),
    0 < next → entries.Named → entries.Stored sb s.disk path id first next →
    first + entries.blocks ≤ maxBlocks →
    (∀ m ∈ entries.plan path first next, Readable sb s m) →
    (∀ x ∈ entries.listing next, Quiet env (path ++ [x.2]) →
      followAll env s s.rootInode (path ++ [x.2]) = loadInode s.disk s.superblock x.1) →
      ∀ m ∈ entries.plan path first next, Quiet env m.path →
        followAll env s s.rootInode m.path = madeInode m
  | .nil, _, _, _, _ => by
    unfold Entries.plan
    exact fun _ _ _ _ _ _ m hm => absurd hm List.not_mem_nil
  | .cons name node rest, path, id, first, next => by
    unfold Entries.plan Entries.Named Entries.Stored Entries.blocks Entries.listing
    simp only
    intro hnext
    have hafter : 0 < if name = thirdStage then next else next + 1 := by
      split <;> omega
    generalize (if name = thirdStage then next else next + 1) = after at *
    rintro ⟨-, hnode, hrest⟩ ⟨hstored, htrees⟩ hblocks hread hsearch m hm
    rcases List.mem_append.mp hm with hm | hm
    · refine node.found (path ++ [name]) _ id first after hafter hnode hstored (by omega)
        (fun m hm => hread m (List.mem_append_left _ hm)) (fun hquiet => ?_) m hm
      have hreadable := hread _ (List.mem_append_left _ (node.made_mem _ _ _ _))
      rw [hsearch (childId name next, name) List.mem_cons_self hquiet]
      exact hreadable.2.trans hstored.inode
    · exact rest.found path id _ _ (by omega) hrest htrees (by omega)
        (fun m hm => hread m (List.mem_append_right _ hm))
        (fun x hx => hsearch x (List.mem_cons_of_mem _ hx)) m hm

end

end Follow

/-! ## 5. The image in the kernel -/

/-- The entry of a directory with a name. -/
def Entries.find : Entries → List UInt8 → Option Node
  | .nil, _ => none
  | .cons name node rest, c => if name = c then some node else rest.find c

/-- The file or directory at a path. -/
def Node.nodeAt : Node → List (List UInt8) → Option Node
  | node, [] => some node
  | .file _, _ :: _ => none
  | .dir entries, c :: cs => (entries.find c).bind fun node => node.nodeAt cs

/-- `"/c1/../ck"`. -/
def pathTo (cs : List (List UInt8)) : List UInt8 := slash :: [slash].intercalate cs

mutual

/-- Everything in a plan is made for a file or directory. -/
theorem Node.plan_made : ∀ (node : Node) (path : List (List UInt8)) (id first next : Nat),
    ∀ m ∈ node.plan path id first next, ∃ (node' : Node) (id' first' : Nat),
      m = node'.made m.path id' first'
  | .file data, path, id, first, next => by
    unfold Node.plan
    intro m hm
    rw [List.mem_singleton.mp hm]
    exact ⟨.file data, id, first, rfl⟩
  | .dir entries, path, id, first, next => by
    unfold Node.plan
    intro m hm
    rcases List.mem_cons.mp hm with rfl | hm
    · exact ⟨.dir entries, id, first, rfl⟩
    · exact entries.plan_made path _ next m hm

theorem Entries.plan_made : ∀ (entries : Entries) (path : List (List UInt8)) (first next : Nat),
    ∀ m ∈ entries.plan path first next, ∃ (node' : Node) (id' first' : Nat),
      m = node'.made m.path id' first'
  | .nil, _, _, _ => by
    unfold Entries.plan
    exact fun _ h => absurd h List.not_mem_nil
  | .cons name node rest, path, first, next => by
    unfold Entries.plan
    intro m hm
    rcases List.mem_append.mp hm with hm | hm
    · exact node.plan_made _ _ _ _ m hm
    · exact rest.plan_made path _ _ m hm

end

/-- What is planned for an entry is planned for the directory. -/
theorem Entries.plan_find : ∀ (entries : Entries) (path : List (List UInt8)) (first next : Nat)
    {c : List UInt8} {node : Node}, entries.find c = some node →
    ∃ id first' next', ∀ m ∈ node.plan (path ++ [c]) id first' next',
      m ∈ entries.plan path first next
  | .nil, _, _, _, _, _ => by
    unfold Entries.find
    exact fun h => absurd h (by simp)
  | .cons name node rest, path, first, next, c, node' => by
    unfold Entries.find Entries.plan
    intro hfind
    by_cases hname : name = c
    · rw [if_pos hname, Option.some_inj] at hfind
      subst hname hfind
      exact ⟨_, _, _, fun m hm => List.mem_append_left _ hm⟩
    · rw [if_neg hname] at hfind
      obtain ⟨id, first', next', hmem⟩ := rest.plan_find path (first + node.blocks)
        ((if name = thirdStage then next else next + 1) + node.fresh) hfind
      exact ⟨id, first', next', fun m hm => List.mem_append_right _ (hmem m hm)⟩

/-- **Every file and directory is planned** under its path. -/
theorem Node.plan_nodeAt : ∀ (cs : List (List UInt8)) (node : Node) (path : List (List UInt8))
    (id first next : Nat) {node' : Node}, node.nodeAt cs = some node' →
    ∃ id' first', node'.made (path ++ cs) id' first' ∈ node.plan path id first next := by
  intro cs
  induction cs with
  | nil =>
    intro node path id first next node' hat
    have hsame : node = node' := by
      unfold Node.nodeAt at hat
      exact Option.some_inj.mp hat
    subst hsame
    rw [List.append_nil]
    exact ⟨id, first, node.made_mem path id first next⟩
  | cons c cs ih =>
    intro node path id first next node' hat
    cases node with
    | file data =>
      unfold Node.nodeAt at hat
      exact absurd hat (by simp)
    | dir entries =>
      unfold Node.nodeAt at hat
      obtain ⟨child, hfind, hchild⟩ := Option.bind_eq_some_iff.mp hat
      unfold Node.plan
      obtain ⟨id₁, first₁, next₁, hmem⟩ := entries.plan_find path (first + bytesToBlocks
        ((entries.length + 2) * dirEntrySize)) next hfind
      obtain ⟨id', first', hmade⟩ := ih child (path ++ [c]) id₁ first₁ next₁ hchild
      rw [List.append_assoc, List.singleton_append] at hmade
      exact ⟨id', first', List.mem_cons_of_mem _ (hmem _ hmade)⟩

/-- The components of the path. -/
theorem components_pathTo {cs : List (List UInt8)} (h : ∀ c ∈ cs, slash ∉ c) (hne : cs ≠ []) :
    components (pathTo cs) = [] :: cs := by
  unfold pathTo
  rw [components_cons, if_pos rfl]
  unfold components
  rw [List.splitOn_intercalate _ h hne]

theorem Entries.find_named : ∀ (entries : Entries) {c : List UInt8} {node : Node},
    entries.Named → entries.find c = some node → NameOk c ∧ node.Named
  | .nil, _, _ => by
    unfold Entries.find
    exact fun _ h => absurd h (by simp)
  | .cons name node rest, c, node' => by
    unfold Entries.find Entries.Named
    rintro ⟨hname, hnode, hrest⟩ hfind
    by_cases heq : name = c
    · rw [if_pos heq, Option.some_inj] at hfind
      subst heq hfind
      exact ⟨hname, hnode⟩
    · rw [if_neg heq] at hfind
      exact rest.find_named hrest hfind

/-- The names of a path. -/
theorem Node.nodeAt_named : ∀ (cs : List (List UInt8)) (node : Node) {node' : Node}, node.Named →
    node.nodeAt cs = some node' → ∀ c ∈ cs, NameOk c := by
  intro cs
  induction cs with
  | nil => exact fun _ _ _ _ c hc => absurd hc List.not_mem_nil
  | cons c cs ih =>
    intro node node' hnamed hat
    cases node with
    | file data =>
      unfold Node.nodeAt at hat
      exact absurd hat (by simp)
    | dir entries =>
      unfold Node.nodeAt at hat
      obtain ⟨child, hfind, hchild⟩ := Option.bind_eq_some_iff.mp hat
      unfold Node.Named at hnamed
      obtain ⟨hc, hnode⟩ := entries.find_named hnamed.2 hfind
      intro c' hc'
      rcases List.mem_cons.mp hc' with rfl | hc'
      · exact hc
      · exact ih child hnode hchild c' hc'

/-- **The walk along such a path** follows its names from the root directory. -/
theorem inodeFromPath_pathTo (env : Env) (s : State) {cs : List (List UInt8)}
    (h : ∀ c ∈ cs, NameOk c) {path : CString} (hpath : path.chars = pathTo cs) :
    inodeFromPath env s path = followAll env s s.rootInode cs := by
  have hstart : startInode s path.chars = s.rootInode := by
    unfold startInode
    rw [hpath]
    exact if_pos rfl
  have hplain : ∀ c ∈ cs, isDotted c = false := by
    intro c hc
    have hdot := (h c hc).noDot
    match c, hdot with
    | [], _ => rfl
    | [_], _ => rfl
    | [_, _], _ => rfl
    | [a, b, _], hdot =>
      have ha : (a == dot) = false := by simpa using hdot
      show (a == dot && b == dot) = false
      rw [ha, Bool.false_and]
    | _ :: _ :: _ :: _ :: _, _ => rfl
  rw [inodeFromPath_eq, hstart, hpath]
  by_cases hne : cs = []
  · subst hne
    rfl
  · rw [components_pathTo (fun c hc => (h c hc).noSlash) hne, List.flatMap_cons,
      flatMap_takeApart hplain]
    rfl

/-- **What `init_fs_vars` reads** from the image of a tree. -/
theorem initFsVars_image {root : Entries} (hfits : Fits root) (hone : root.thirds = 1)
    (hnamed : (Node.dir root).Named) (bootBlock : Bytes) (env : Env) {s : State}
    (hdisk : s.disk = (makeDisk bootBlock root).2.bytes)
    (hboot : s.superblockArea = Packed.load s.disk (sectorAddr superblockDiskSector)) :
    (initFsVars env s).superblock.layout = (makeDisk bootBlock root).1.layout ∧
      (initFsVars env s).rootInode =
        madeInode ((Node.dir root).made [] 1 (builtFirstBlock root.count)) := by
  obtain ⟨hstored, hsuper⟩ := makeDisk_stored hfits hone hnamed bootBlock
  have hload : (Packed.load s.superblockArea.bytes 0 : Superblock) =
      (makeDisk bootBlock root).1 := by
    rw [← hsuper, ← hdisk, hboot]
    refine Packed.load_congr fun k hk => ?_
    rw [Nat.zero_add, Packed.bytes_load _ _ (by omega)]
    rfl
  have hsizes := hfits.sizes bootBlock
  have harea : (makeDisk bootBlock root).1.firstInodeBlock = 4 :=
    congrArg Layout.inodeArea hsizes.layout
  obtain ⟨hslot, -⟩ := hfits.slot hone bootBlock
    ((Node.dir root).made_mem [] 1 (builtFirstBlock root.count) 3)
  unfold initFsVars
  simp only [hload]
  refine ⟨Superblock.layout_set32 (Or.inl rfl), ?_⟩
  rw [← hstored.inode, hslot, hdisk, harea]
  have hsector : sectorAddr (u32 (4 * 8)) = 4 * fsBlockSize := by decide
  refine Packed.load_congr fun k hk => ?_
  rw [slice_apply, hsector, ← Nat.add_assoc]
  rfl

/-- **What `make_disk` writes, the kernel finds**: the path of every file and directory of a tree
leads to the one inode that was made for it. -/
theorem kernel_finds (bootBlock : Bytes) (root : Entries) (hfits : Fits root)
    (hone : root.thirds = 1) (hnamed : (Node.dir root).Named) (s : State)
    (hdisk : s.disk = (makeDisk bootBlock root).2.bytes)
    (hboot : s.superblockArea = Packed.load s.disk (sectorAddr superblockDiskSector))
    (env₀ env : Env) (cs : List (List UInt8)) (node : Node)
    (hnode : (Node.dir root).nodeAt cs = some node) (hquiet : Quiet env cs) (path : CString)
    (hpath : path.chars = pathTo cs) :
    ∃ m ∈ (makeDisk bootBlock root).2.made, m.path = cs ∧
      (∀ m' ∈ (makeDisk bootBlock root).2.made, m'.path = cs → m' = m) ∧
      m.type = node.type ∧ m.sizeBytes = node.sizeBytes ∧
      IsInodeOf (inodeFromPath env (initFsVars env₀ s) path) m := by
  obtain ⟨hinodes, hcap⟩ := hfits.bounds
  obtain ⟨hlayout, hroot⟩ := initFsVars_image hfits hone hnamed bootBlock env₀ hdisk hboot
  have hstored := (makeDisk_stored hfits hone hnamed bootBlock).1
  have hsizes := hfits.sizes bootBlock
  have hslot := fun m hm => @Fits.slot root hfits hone bootBlock m hm
  have htiles := (Node.dir root).plan_tiles [] 1 (builtFirstBlock root.count) 3
  have hids := List.inj_on_of_nodup_map ((rootPlan_ids hone
    (builtFirstBlock root.count)).nodup_iff.mpr List.nodup_range')
  have hdisk' : (initFsVars env₀ s).disk = (makeDisk bootBlock root).2.bytes := hdisk
  rw [hsizes.layout] at hlayout
  generalize initFsVars env₀ s = s' at *
  have harea : s'.superblock.firstInodeBlock = 4 := congrArg Layout.inodeArea hlayout
  have hmade : (makeDisk bootBlock root).2.made =
      (Node.dir root).plan [] 1 (builtFirstBlock root.count) 3 :=
    (makeDisk_wrote hfits bootBlock).made
  -- every planned inode is read from its slot
  have hread : ∀ m ∈ (Node.dir root).plan [] 1 (builtFirstBlock root.count) 3,
      Readable (makeDisk bootBlock root).1 s' m := by
    intro m hm
    obtain ⟨hat, hlt⟩ := hslot m hm
    have hinside : InodeFits s'.superblock m.id := by
      unfold InodeFits
      rw [harea]
      omega
    refine ⟨by omega, ?_⟩
    rw [loadInode_eq hinside, hat]
    unfold inodeAddr
    rw [harea]
    rfl
  have hinode : ∀ m ∈ (Node.dir root).plan [] 1 (builtFirstBlock root.count) 3, m.path = cs →
      IsInodeOf (followAll env s' s'.rootInode cs) m := by
    rintro m hm rfl
    have hfound := (Node.dir root).found (congrArg Layout.directExtents hlayout) [] 1 1 _ 3
      (by decide) hnamed (hdisk' ▸ hstored) (by rw [maxBlocks_eq]; unfold builtFirstBlock; omega)
      hread (fun _ => hroot) m hm hquiet
    rw [hfound]
    obtain ⟨node', id', first', hmade'⟩ := (Node.dir root).plan_made _ _ _ _ m hm
    have hfirst := (htiles.mem hm).2
    refine madeInode_is (hread m hm).1 ?_ ?_ ?_
    · rw [hmade']
      cases node' with
      | file => exact (by decide : filetypeFile < 256)
      | dir => exact (by decide : filetypeDir < 256)
    · rw [hmade']
      rfl
    · rw [maxBlocks_eq]
      unfold builtFirstBlock at hfirst
      omega
  obtain ⟨id', first', hmem⟩ := Node.plan_nodeAt cs (.dir root) [] 1
    (builtFirstBlock root.count) 3 hnode
  rw [hmade, inodeFromPath_pathTo env s' ((Node.dir root).nodeAt_named cs hnamed hnode) hpath]
  refine ⟨_, hmem, rfl, fun m' hm' hpath' => ?_, rfl, rfl, hinode _ hmem rfl⟩
  exact hids hm' hmem ((hinode m' hm' hpath').id.symm.trans (hinode _ hmem rfl).id)

/-- The image of the small tree in the kernel. -/
def smallBoot : State where
  disk := (makeDisk (fun _ => 0) smallTree).2.bytes
  superblock := Packed.zero
  superblockArea := Packed.load (makeDisk (fun _ => 0) smallTree).2.bytes
    (sectorAddr superblockDiskSector)
  rootInode := noInode
  currentDirInode := noInode

/-- `"/bin/a"`. -/
def smallPath : CString where
  chars := pathTo [text "bin", text "a"]
  nonzero := by decide +kernel
  after := fun _ => 0

theorem kernel_finds_small :
    ∃ m ∈ (makeDisk (fun _ => 0) smallTree).2.made, m.path = [text "bin", text "a"] ∧
      (∀ m' ∈ (makeDisk (fun _ => 0) smallTree).2.made,
        m'.path = [text "bin", text "a"] → m' = m) ∧
      m.type = filetypeFile ∧ m.sizeBytes = 3 ∧
      IsInodeOf (inodeFromPath quietEnv (initFsVars quietEnv smallBoot) smallPath) m :=
  kernel_finds (fun _ => 0) smallTree (by unfold Fits; decide) (by decide)
    (by simp only [smallTree, Node.Named, Entries.Named, Entries.names]; decide +kernel) smallBoot rfl rfl
    quietEnv quietEnv _ (.file [1, 2, 3]) rfl (by unfold Quiet; decide +kernel) smallPath rfl

end AmateurOs.MakeDisk
