/-
# The tree of directories
What a path leads to is meant to be read off the entries of the directories: a directory, the
child it has under a name, the child of that (`descend`).  `inode_from_path` computes this as long
as it stays in the tree (`OnTheWay`): it looks a name up in a file as well as in a directory, and
where no entry of a block has the name, in the bytes behind the block.

On a well-formed disk (`WellFormed`: the directories form a tree) an entry that is added to a
directory does not change the way to it (`Extended.followAll`).  The entry could be taken in place
of another one, whose name it begins like; but a way through the directory does not come back to it.
-/
import Mathlib.Data.List.Find
import AmateurOs.Fs.Renaming

namespace AmateurOs.Fs

open AmateurOs.Lib

/-! ## 1. Entries read -/

/-- The name of an entry ends inside it. -/
def NameEnds (tempBlock : Bytes) (count : Nat) : Prop := ∃ k < 60, entryName tempBlock count k = 0

/-- The entries of a block that are in use. -/
def liveEntries (tempBlock : Bytes) : Nat :=
  (List.range dirEntriesPerBlock).countP fun count => entryId tempBlock count ≠ 0

/-- `strncmp` looks at a string up to its terminator. -/
theorem strncmpLoop_congr {string1 string1' string2 : Bytes} {m : Nat}
    (hsame : ∀ j ≤ m, string1 j = string1' j) (hend : string1 m = 0) : ∀ len k, k ≤ m →
      strncmpLoop string1 string2 len k = strncmpLoop string1' string2 len k := by
  intro len
  induction len with
  | zero => exact fun _ _ => rfl
  | succ len ih =>
    intro k hk
    unfold strncmpLoop
    rw [← hsame k hk]
    by_cases hnext : string1 k ≠ 0 ∧ string2 k ≠ 0 ∧ string1 k = string2 k
    · have hlt : k < m := Nat.lt_of_le_of_ne hk fun heq => hnext.1 (heq ▸ hend)
      rw [if_pos hnext, if_pos hnext, ih (k + 1) hlt]
    · rw [if_neg hnext, if_neg hnext]

/-- Entries with the same name, which ends in them, match the same names. -/
theorem entryMatches_congr {tempBlock tempBlock' : Bytes} {count : Nat} (name : List UInt8)
    (hsame : ∀ k < 60, entryName tempBlock count k = entryName tempBlock' count k)
    (hend : NameEnds tempBlock count) :
    entryMatches tempBlock name count = entryMatches tempBlock' name count := by
  obtain ⟨m, hm, hzero⟩ := hend
  exact strncmpLoop_congr (fun j hj => hsame j (Nat.lt_of_le_of_lt hj hm)) hzero _ 0 (Nat.zero_le m)

/-- A name whose length is a multiple of 256 is compared in no character: the first entry has it. -/
theorem findInBlock_first {tempBlock : Bytes} {name : List UInt8} (hlen : u8 name.length = 0)
    (hused : entryId tempBlock 0 ≠ 0) : findInBlock tempBlock name = some (entryId tempBlock 0) := by
  have hmatch : entryMatches tempBlock name 0 = true := by
    unfold entryMatches strncmpEq
    rw [hlen]
    rfl
  have hscan : scanNames tempBlock name = 0 :=
    scanNames_eq (by decide) hmatch fun j hj => absurd hj (Nat.not_lt_zero j)
  unfold findInBlock
  simp only [hscan, hmatch, hused, Bool.not_true, Bool.false_eq_true, or_self, if_false]

/-- Another name is compared in its first character at least. -/
theorem entryName_of_matches {tempBlock : Bytes} {name : List UInt8} {n : Nat}
    (hnonzero : ∀ x ∈ name, x ≠ 0) (hlen : u8 name.length ≠ 0)
    (hmatch : entryMatches tempBlock name n = true) :
    some (entryName tempBlock n 0) = name.head? := by
  have hall := (strncmpEq_iff hnonzero).mp hmatch
  cases name with
  | nil => exact absurd rfl hlen
  | cons x name =>
    rw [hall 0 (Nat.pos_of_ne_zero hlen)]
    rfl

/-- The entry that is found in a block without any behind it. -/
theorem findInBlock_used {tempBlock : Bytes} {name : List UInt8} {id : Nat}
    (hbehind : entryId tempBlock dirEntriesPerBlock = 0) (h : findInBlock tempBlock name = some id) :
    id ≠ 0 ∧ scanNames tempBlock name < dirEntriesPerBlock ∧
      entryId tempBlock (scanNames tempBlock name) = id := by
  unfold findInBlock at h
  simp only at h
  split at h
  · cases h
  next hstop =>
    obtain ⟨hused, -⟩ := not_or.mp hstop
    obtain rfl := Option.some.inj h
    refine ⟨hused, Nat.lt_of_le_of_ne (scanNames_le _ _) fun heq => hused ?_, rfl⟩
    rw [heq]
    exact hbehind

theorem content_behind {l : Layout} {disk : Bytes} {block : Nat} :
    entryId ((volume l disk).content block) dirEntriesPerBlock = 0 := by
  unfold entryId le32 dirEntriesPerBlock dirEntrySize volume
  simp

section

variable {l : Layout} {disk after : Bytes} {block count : Nat} (hs : l.Shown block)
  (hb : block < diskBlocks)

include hs hb

/-- The name of an entry, in the block as the volume has it. -/
theorem entryName_content (hc : count < dirEntriesPerBlock) {k : Nat} (hk : k < 60) :
    entryName ((volume l disk).content block) count k =
      entryName (readBlock disk after block) count k := by
  unfold dirEntriesPerBlock at hc
  unfold entryName dirEntrySize
  rw [slice_apply, slice_apply]
  exact (volume_readBlock hs hb (by omega)).symm

/-- The scan for a name stops at the same entry, whatever lies behind the block. -/
theorem scanNames_content (hends : ∀ n < dirEntriesPerBlock,
    NameEnds ((volume l disk).content block) n) (name : List UInt8) :
    scanNames (readBlock disk after block) name = scanNames ((volume l disk).content block) name := by
  unfold scanNames
  rw [List.find?_congr fun n hn => ?_]
  have hlt := List.mem_range.mp hn
  exact (entryMatches_congr name (fun k hk => entryName_content hs hb hlt hk) (hends n hlt)).symm

/-- **What is found in a block** is found in its entries, unless it is found behind them. -/
theorem findInBlock_content (hends : ∀ n < dirEntriesPerBlock,
    NameEnds ((volume l disk).content block) n) {name : List UInt8}
    (hin : ∀ id, findInBlock (readBlock disk after block) name = some id →
      scanNames (readBlock disk after block) name < dirEntriesPerBlock) :
    findInBlock (readBlock disk after block) name =
      findInBlock ((volume l disk).content block) name := by
  have hscan := @scanNames_content l disk after block hs hb hends name
  by_cases hlt : scanNames ((volume l disk).content block) name < dirEntriesPerBlock
  · have hid := @entryId_content l disk after block _ hs hb hlt
    have hmatch := entryMatches_congr name
      (fun k hk => @entryName_content l disk after block _ hs hb hlt k hk) (hends _ hlt)
    unfold findInBlock
    simp only [hscan, hid, hmatch]
  · -- the volume has zeros behind the block
    have hnone : findInBlock (readBlock disk after block) name = none :=
      Option.eq_none_iff_forall_not_mem.mpr fun id hid => hlt (hscan ▸ hin id hid)
    have hle := scanNames_le ((volume l disk).content block) name
    have hzero : entryId ((volume l disk).content block)
        (scanNames ((volume l disk).content block) name) = 0 := by
      rw [Nat.le_antisymm hle (Nat.le_of_not_lt hlt)]
      exact content_behind
    rw [hnone]
    unfold findInBlock
    exact (if_pos (Or.inl hzero)).symm

end

/-! ## 2. Well-formed disks -/

/-- **An entry in order**: it is unused and without a name, or leads to an inode, and its name ends
inside it. -/
structure EntryInOrder (s : State) (tempBlock : Bytes) (count : Nat) : Prop where
  leads : entryId tempBlock count = 0 ∧ entryName tempBlock count 0 = 0 ∨
    Carries s (entryId tempBlock count)
  ends : NameEnds tempBlock count

/-- Directories lie deeper than those with entries for them, but for entries such as `.` and
`..`. -/
def Deepens (s : State) (depth : Nat → Nat) : Prop :=
  ∀ i, IsDir s i → ∀ b, (s.volume.inode i).Holds b → ∀ n < dirEntriesPerBlock,
    IsDir s (entryId (s.volume.content b) n) → entryName (s.volume.content b) n 0 ≠ dot →
      depth i < depth (entryId (s.volume.content b) n)

/-- **A well-formed disk**, with the copies of two directories. -/
structure WellFormed (s : State) : Prop extends Sane s where
  /-- Number 0 is not handed out, and the root directory has number 1. -/
  zeroth : s.volume.inodeBit 0 = true
  rootNumber : s.rootInode.id = 1
  /-- The blocks of an inode are marked, and are those of no other inode. -/
  marked : ∀ i, Carries s i → ∀ b, (s.volume.inode i).Holds b → s.volume.dataBit b = true
  apart : ∀ i j, Carries s i → Carries s j → i ≠ j → ∀ b, (s.volume.inode i).Holds b →
    ¬ (s.volume.inode j).Holds b
  inOrder : ∀ i, IsDir s i → ∀ b, (s.volume.inode i).Holds b → ∀ n < dirEntriesPerBlock,
    EntryInOrder s (s.volume.content b) n
  /-- The first entry of a directory is its own, and its sizes are those of its entries. -/
  self : ∀ i, IsDir s i → ∀ b bs, directBlocks s.superblock (s.volume.inode i) = b :: bs →
    entryId (s.volume.content b) 0 = i
  sizeBytes : ∀ i, IsDir s i → (s.volume.inode i).sizeBytes = dirEntrySize *
    ((directBlocks s.superblock (s.volume.inode i)).map fun b =>
      liveEntries (s.volume.content b)).sum
  sizeSectors : ∀ i, IsDir s i →
    (s.volume.inode i).sizeSectors = bytesToSectors (s.volume.inode i).sizeBytes
  tree : ∃ depth, Deepens s depth

/-! ## 3. Children -/

/-- The number that a directory has under a name. -/
def sought (s : State) (d : Inode) (c : List UInt8) : Option Nat :=
  (searchedBlocks s.superblock d).findSome? fun b => findInBlock (s.volume.content b) c

/-- The inode of that number. -/
def child (s : State) (d : Inode) (c : List UInt8) : Inode :=
  match sought s d c with
  | some id => s.volume.inode id
  | none => noInode

/-- **What names lead to**, one after the other; an empty one leads nowhere else. -/
def descend (s : State) (d : Inode) (cs : List (List UInt8)) : Inode :=
  cs.foldl (fun d c => if c = [] then d else child s d c) d

/-- A name is not found behind a block of a directory: where the look-up stops, it stops in the
block.  The blocks behind that one are not read. -/
def InEntries (env : Env) (s : State) (d : Inode) (c : List UInt8) : Prop :=
  ∀ front b back, searchedBlocks s.superblock d = front ++ b :: back →
    (∀ b' ∈ front, findInBlock (readBlock s.disk env.afterTempBlock b') c = none) →
    ∀ id, findInBlock (readBlock s.disk env.afterTempBlock b) c = some id →
      scanNames (readBlock s.disk env.afterTempBlock b) c < dirEntriesPerBlock

/-- **A way in the tree**: names are looked up in directories, and not found behind their blocks. -/
def OnTheWay (env : Env) (s : State) : Inode → List (List UInt8) → Prop
  | _, [] => True
  | d, c :: cs => (c = [] ∨ NoFile d ∧ InEntries env s d c) ∧ OnTheWay env s (follow env s d c) cs

/-- A component as the characters of a path make it, that is not hidden. -/
structure Visible (c : List UInt8) : Prop where
  nonzero : ∀ x ∈ c, x ≠ 0
  notDot : c.head? ≠ some dot

theorem findSome_congr {α β : Type} {f g : α → Option β} {l : List α}
    (h : ∀ a ∈ l, f a = g a) : l.findSome? f = l.findSome? g := by
  induction l with
  | nil => rfl
  | cons a l ih =>
    rw [List.findSome?_cons, List.findSome?_cons, h a List.mem_cons_self,
      ih fun b hb => h b (List.mem_cons_of_mem a hb)]

/-- Two searches agree that agree on each element up to the first at which one of them stops. -/
theorem findSome_congr_first {α β : Type} {f g : α → Option β} {l : List α}
    (h : ∀ front a back, l = front ++ a :: back → (∀ x ∈ front, f x = none) → f a = g a) :
    l.findSome? f = l.findSome? g := by
  induction l with
  | nil => rfl
  | cons a l ih =>
    have hfirst : f a = g a := h [] a l rfl fun x hx => absurd hx List.not_mem_nil
    rw [List.findSome?_cons, List.findSome?_cons, ← hfirst]
    cases hfa : f a with
    | some b => rfl
    | none =>
      refine ih fun front b back hl hnone => h (a :: front) b back (by rw [hl]; rfl) fun x hx => ?_
      rcases List.mem_cons.mp hx with rfl | hx
      · exact hfa
      · exact hnone x hx

section

variable {env : Env} {s : State} (h : WellFormed s) {d : Inode} {c : List UInt8}

include h

/-- The blocks that are searched are blocks of the inode. -/
theorem WellFormed.searched {b : Nat} (hb : b ∈ searchedBlocks s.superblock d) : d.Holds b :=
  holds_of_mem_directBlocks h.sound.extents (List.take_subset _ _ hb)

/-- The entries of a directory. -/
theorem WellFormed.entries_inOrder (hd : OnDisk s d) (hdir : d.type = filetypeDir) {b : Nat}
    (hb : d.Holds b) : ∀ n < dirEntriesPerBlock, EntryInOrder s (s.volume.content b) n := by
  refine h.inOrder d.id ⟨hd.carries, ?_⟩ b ?_
  · rw [hd.2]
    exact hdir
  · rw [hd.2]
    exact hb

/-- **The entry of a number that is found.** -/
theorem WellFormed.sought_entry (hd : Found s d) (hdir : NoFile d) {id : Nat}
    (hid : sought s d c = some id) : OnDisk s d ∧ Carries s id ∧
      ∃ b, d.Holds b ∧ ∃ n < dirEntriesPerBlock, entryId (s.volume.content b) n = id ∧
        entryMatches (s.volume.content b) c n = true := by
  obtain ⟨b, hb, hfind⟩ := List.exists_of_findSome?_eq_some hid
  have hold := h.searched hb
  have hondisk : OnDisk s d := hd.resolve_left fun hnone =>
    absurd (hnone ▸ hold) (not_holds_noInode b)
  obtain ⟨hused, hlt, hentry⟩ := @findInBlock_used (s.volume.content b) c id content_behind hfind
  have hleads := (h.entries_inOrder hondisk (hdir.resolve_left hondisk.1) hold _ hlt).leads
  rw [hentry] at hleads
  exact ⟨hondisk, hleads.resolve_left fun hunused => hused hunused.1, b, hold, _, hlt, hentry,
    scanNames_matches hlt⟩

/-- The entry of a child. -/
theorem WellFormed.child_entry (hd : Found s d) (hdir : NoFile d) (hne : child s d c ≠ noInode) :
    OnDisk s d ∧ ∃ b, d.Holds b ∧ ∃ n < dirEntriesPerBlock,
      Carries s (entryId (s.volume.content b) n) ∧ entryMatches (s.volume.content b) c n = true ∧
      child s d c = s.volume.inode (entryId (s.volume.content b) n) := by
  unfold child at hne ⊢
  cases hid : sought s d c with
  | none =>
    rw [hid] at hne
    exact absurd rfl hne
  | some id =>
    obtain ⟨hondisk, hcarries, b, hold, n, hn, rfl, hmatch⟩ := h.sought_entry hd hdir hid
    exact ⟨hondisk, b, hold, n, hn, hcarries, hmatch, rfl⟩

theorem WellFormed.child_found (hd : Found s d) (hdir : NoFile d) : Found s (child s d c) := by
  by_cases hne : child s d c = noInode
  · exact Or.inl hne
  · obtain ⟨-, b, -, n, -, hcarries, -, hchild⟩ := h.child_entry hd hdir hne
    rw [hchild]
    exact Or.inr hcarries.onDisk

/-- The search that finds nothing behind the blocks. -/
theorem WellFormed.search_sought (hd : Found s d) (hdir : NoFile d) (hin : InEntries env s d c) :
    ((searchedBlocks s.superblock d).findSome? fun b =>
      findInBlock (readBlock s.disk env.afterTempBlock b) c) = sought s d c := by
  refine findSome_congr_first fun front b back hsplit hmissed => ?_
  have hold := h.searched (hsplit ▸ List.mem_append_right front List.mem_cons_self)
  have hondisk : OnDisk s d := hd.resolve_left fun hnone =>
    absurd (hnone ▸ hold) (not_holds_noInode b)
  obtain ⟨⟨hshown, hlt⟩, -⟩ := h.block hondisk hold
  exact findInBlock_content hshown hlt (fun n hn =>
    (h.entries_inOrder hondisk (hdir.resolve_left hondisk.1) hold n hn).ends)
    (hin front b back hsplit hmissed)

/-- **A look-up** that finds nothing behind the blocks finds the child. -/
theorem WellFormed.lookup_child (hd : Found s d) (hdir : NoFile d) (hin : InEntries env s d c) :
    inodeForNameInDirectory env s d c = child s d c := by
  unfold inodeForNameInDirectory child
  simp only [h.search_sought hd hdir hin]
  cases hid : sought s d c with
  | none => rfl
  | some id =>
    obtain ⟨-, hcarries, -⟩ := h.sought_entry hd hdir hid
    exact (volume_loadInode h.sound hcarries.lt).symm

/-- One step on the way. -/
theorem WellFormed.follow_child (hd : Found s d) (hc : Visible c)
    (hway : c = [] ∨ NoFile d ∧ InEntries env s d c) :
    follow env s d c = if c = [] then d else child s d c := by
  unfold follow
  by_cases hnil : c = []
  · rw [if_pos (Or.inl hnil), if_pos hnil]
  · have hdot : c ≠ [dot] := fun heq => hc.notDot (heq ▸ rfl)
    obtain ⟨hdir, hin⟩ := hway.resolve_left hnil
    rw [if_neg (not_or.mpr ⟨hnil, hdot⟩), if_neg hnil, h.lookup_child hd hdir hin]

theorem WellFormed.follow_found (hd : Found s d) (hc : Visible c)
    (hway : c = [] ∨ NoFile d ∧ InEntries env s d c) : Found s (follow env s d c) := by
  rw [h.follow_child hd hc hway]
  split
  · exact hd
  next hnil => exact h.child_found hd (hway.resolve_left hnil).1

/-- **The walk of the code** is the way in the tree. -/
theorem WellFormed.followAll_descend : ∀ (cs : List (List UInt8)) {d : Inode}, Found s d →
    (∀ c ∈ cs, Visible c) → OnTheWay env s d cs →
      followAll env s d cs = descend s d cs ∧ Found s (descend s d cs) := by
  intro cs
  induction cs with
  | nil => exact fun hd _ _ => ⟨rfl, hd⟩
  | cons c cs ih =>
    intro d hd hvisible ⟨hway, hrest⟩
    have hc := hvisible c List.mem_cons_self
    have hstep := h.follow_child hd hc hway
    have hnext := ih (h.follow_found hd hc hway) (fun c' hc' =>
      hvisible c' (List.mem_cons_of_mem c hc')) hrest
    rw [followAll_cons, descend, List.foldl_cons, ← hstep]
    exact hnext

/-! ## 4. Depth -/

/-- A name whose length is a multiple of 256 leads nowhere else. -/
theorem WellFormed.child_self (hd : OnDisk s d) (hdir : d.type = filetypeDir)
    (hlen : u8 c.length = 0) : child s d c = d ∨ child s d c = noInode := by
  unfold child sought
  cases hblocks : searchedBlocks s.superblock d with
  | nil => exact Or.inr rfl
  | cons b bs =>
    obtain ⟨bs', hdirect⟩ : ∃ bs', directBlocks s.superblock d = b :: bs' := by
      have hpre : b :: bs <+: directBlocks s.superblock d := hblocks ▸ List.take_prefix _ _
      obtain ⟨behind, hbehind⟩ := hpre
      exact ⟨bs ++ behind, hbehind.symm⟩
    have hself : entryId (s.volume.content b) 0 = d.id := by
      refine h.self d.id ⟨hd.carries, ?_⟩ b bs' ?_
      · rw [hd.2]
        exact hdir
      · rw [hd.2]
        exact hdirect
    rw [List.findSome?_cons, findInBlock_first hlen (hself ▸ hd.1), hself]
    exact Or.inl hd.2

/-- Another name leads to an entry that begins like it. -/
theorem WellFormed.child_deeper {depth : Nat → Nat} (hdepth : Deepens s depth) (hd : Found s d)
    (hdir : NoFile d) (hc : Visible c) (hlen : u8 c.length ≠ 0)
    (hchild : IsDir s (child s d c).id) : depth d.id < depth (child s d c).id := by
  have hne : child s d c ≠ noInode := fun hnone => hchild.1.1 (hnone ▸ id_noInode)
  obtain ⟨hondisk, b, hold, n, hn, hcarries, hmatch, hinode⟩ := h.child_entry hd hdir hne
  have hid : (child s d c).id = entryId (s.volume.content b) n := by
    rw [hinode, hcarries.2]
  rw [hid] at hchild ⊢
  have hfirst := entryName_of_matches hc.nonzero hlen hmatch
  refine hdepth d.id ⟨hondisk.carries, ?_⟩ b ?_ n hn hchild fun hdot => hc.notDot ?_
  · rw [hondisk.2]
    exact hdir.resolve_left hondisk.1
  · rw [hondisk.2]
    exact hold
  · rw [← hfirst, hdot]

/-- **A way never comes back up.** -/
theorem WellFormed.depth_le {depth : Nat → Nat} (hdepth : Deepens s depth) :
    ∀ (cs : List (List UInt8)) {d : Inode}, Found s d → (∀ c ∈ cs, Visible c) →
      OnTheWay env s d cs → IsDir s (followAll env s d cs).id →
        IsDir s d.id ∧ depth d.id ≤ depth (followAll env s d cs).id := by
  intro cs
  induction cs with
  | nil => exact fun _ _ _ hend => ⟨hend, Nat.le_refl _⟩
  | cons c cs ih =>
    intro d hd hvisible ⟨hway, hrest⟩ hend
    have hc := hvisible c List.mem_cons_self
    obtain ⟨hdir, hle⟩ := ih (h.follow_found hd hc hway) (fun c' hc' =>
      hvisible c' (List.mem_cons_of_mem c hc')) hrest hend
    rw [followAll_cons]
    rw [h.follow_child hd hc hway] at hdir hle ⊢
    by_cases hnil : c = []
    · simp only [if_pos hnil] at hdir hle ⊢
      exact ⟨hdir, hle⟩
    · simp only [if_neg hnil] at hdir hle ⊢
      obtain ⟨hnofile, -⟩ := hway.resolve_left hnil
      have hne : child s d c ≠ noInode := fun hnone => hdir.1.1 (hnone ▸ id_noInode)
      obtain ⟨hondisk, -⟩ := h.child_entry hd hnofile hne
      have htype := hnofile.resolve_left hondisk.1
      refine ⟨⟨hondisk.carries, hondisk.2.symm ▸ htype⟩, ?_⟩
      by_cases hlen : u8 c.length = 0
      · have hself := (h.child_self hondisk htype hlen).resolve_right hne
        rw [hself] at hle ⊢
        exact hle
      · exact Nat.le_trans (Nat.le_of_lt (h.child_deeper hdepth hd hnofile hc hlen hdir)) hle

end

/-! ## 5. One more entry -/

/-- **A directory with one more entry**: `p`, which becomes `p'`, has the same blocks, and the first
of them begins with the same entry; what the other inodes hold stays. -/
structure Extended (s t : State) (p p' : Inode) : Prop where
  layout : t.superblock.layout = s.superblock.layout
  extents : SameExtents p' p
  searched : searchedBlocks s.superblock p' = searchedBlocks s.superblock p
  inode : ∀ i, Carries s i → t.volume.inode i = if i = p.id then p' else s.volume.inode i
  content : ∀ b, ¬ p.Holds b → t.volume.content b = s.volume.content b
  self : ∀ b bs, searchedBlocks s.superblock p = b :: bs → entryId (t.volume.content b) 0 = p.id

/-- The blocks that are searched depend on the layout alone. -/
theorem searchedBlocks_layout {sb sb' : Superblock} (h : sb'.layout = sb.layout) (d : Inode) :
    searchedBlocks sb' d = searchedBlocks sb d := by
  have hextents : sb'.directExtentsPerInode = sb.directExtentsPerInode :=
    congrArg Layout.directExtents h
  unfold searchedBlocks
  rw [hextents]

section

variable {env : Env} {s t : State} {p p' : Inode} (h : WellFormed s) (hp : OnDisk s p)
  (hx : Extended s t p p') {d : Inode} {c : List UInt8}

include h hp hx

/-- The inode of a number, before and after. -/
theorem Extended.load {i : Nat} (hi : Carries s i) :
    loadInode t.disk t.superblock i = refreshed (loadInode s.disk s.superblock i) p p' := by
  have hload : s.volume.inode i = loadInode s.disk s.superblock i :=
    volume_loadInode h.sound hi.lt
  have hlt : i < t.superblock.layout.capacity := hx.layout ▸ hi.lt
  have hload' : t.volume.inode i = loadInode t.disk t.superblock i :=
    volume_loadInode (hx.layout ▸ h.sound) hlt
  rw [← hload, ← hload', hx.inode i hi]
  unfold refreshed
  rw [hi.2]

/-- **A look-up in another directory** finds what it found. -/
theorem Extended.lookup_other (hd : Found s d) (hdir : NoFile d) (hne : d.id ≠ p.id)
    (hin : InEntries env s d c) : inodeForNameInDirectory env t d c =
      refreshed (inodeForNameInDirectory env s d c) p p' := by
  have hsearch : ((searchedBlocks t.superblock d).findSome? fun b =>
      findInBlock (readBlock t.disk env.afterTempBlock b) c) = sought s d c := by
    rw [searchedBlocks_layout hx.layout, ← h.search_sought hd hdir hin]
    refine findSome_congr fun b hb => ?_
    have hold := h.searched hb
    have hondisk : OnDisk s d := hd.resolve_left fun hnone =>
      absurd (hnone ▸ hold) (not_holds_noInode b)
    obtain ⟨⟨hshown, hlt⟩, -⟩ := h.block hondisk hold
    have hapart : ¬ p.Holds b := by
      have hnot := h.apart d.id p.id hondisk.carries hp.carries hne b
      rw [hondisk.2, hp.2] at hnot
      exact hnot hold
    have hcontent : (volume t.superblock.layout t.disk).content b =
        (volume s.superblock.layout s.disk).content b := hx.content b hapart
    rw [readBlock_congr (hx.layout ▸ hshown) hshown hlt hcontent]
  have hsearch' := h.search_sought hd hdir hin
  unfold inodeForNameInDirectory
  simp only [hsearch, hsearch']
  cases hid : sought s d c with
  | none =>
    unfold refreshed
    rw [id_noInode, if_neg fun heq => hp.1 heq.symm]
  | some id => exact hx.load h hp (h.sought_entry hd hdir hid).2.1

/-- **A name that leads nowhere else** still does so. -/
theorem Extended.lookup_self (hdir : p.type = filetypeDir) (hlen : u8 c.length = 0)
    (hchild : child s p c = p) : inodeForNameInDirectory env t p' c = p' := by
  have hblocks : searchedBlocks t.superblock p' = searchedBlocks s.superblock p := by
    rw [searchedBlocks_layout hx.layout, hx.searched]
  unfold inodeForNameInDirectory
  rw [hblocks]
  cases hsearched : searchedBlocks s.superblock p with
  | nil =>
    unfold child sought at hchild
    rw [hsearched] at hchild
    exact absurd (hchild ▸ id_noInode) hp.1
  | cons b bs =>
    have hold : p.Holds b := h.searched (hsearched ▸ List.mem_cons_self)
    obtain ⟨⟨hshown, hlt⟩, -⟩ := h.block hp hold
    have hself : entryId (readBlock t.disk env.afterTempBlock b) 0 = p.id := by
      rw [← hx.self b bs hsearched]
      exact entryId_content (hx.layout ▸ hshown) hlt (by decide)
    rw [List.findSome?_cons, findInBlock_first hlen (hself ▸ hp.1), hself]
    show loadInode t.disk t.superblock p.id = p'
    rw [hx.load h hp hp.carries]
    have hload : s.volume.inode p.id = loadInode s.disk s.superblock p.id :=
      volume_loadInode h.sound hp.carries.lt
    rw [← hload, hp.2]
    exact if_pos rfl

/-- **The way to the directory is the same**, after the entry was added. -/
theorem Extended.followAll (hdir : p.type = filetypeDir) : ∀ (cs : List (List UInt8)) {d : Inode},
    Found s d → (∀ c ∈ cs, Visible c) → OnTheWay env s d cs → followAll env s d cs = p →
      Fs.followAll env t (refreshed d p p') cs = p' := by
  obtain ⟨depth, hdepth⟩ := h.tree
  have hpdir : IsDir s p.id := ⟨hp.carries, hp.2.symm ▸ hdir⟩
  intro cs
  induction cs with
  | nil =>
    intro d _ _ _ (hend : d = p)
    rw [hend]
    exact if_pos rfl
  | cons c cs ih =>
    intro d hd hvisible ⟨hway, hrest⟩ hend
    have hc := hvisible c List.mem_cons_self
    have hrestVisible := fun c' hc' => hvisible c' (List.mem_cons_of_mem c hc')
    have hnext := ih (h.follow_found hd hc hway) hrestVisible hrest hend
    suffices hstep : follow env t (refreshed d p p') c = refreshed (follow env s d c) p p' by
      rw [followAll_cons, hstep]
      exact hnext
    have hchild := h.follow_child hd hc hway
    by_cases hnil : c = []
    · rw [hnil, follow_nil, follow_nil]
    obtain ⟨hnofile, hin⟩ := hway.resolve_left hnil
    have hdot : ¬ (c = [] ∨ c = [dot]) := not_or.mpr ⟨hnil, fun heq => hc.notDot (heq ▸ rfl)⟩
    by_cases hid : d.id = p.id
    · -- a way that leaves the directory does not come back to it
      have hsame : d = p := by
        rw [← (hd.onDisk (hid ▸ hp.1)).2, hid, hp.2]
      have hback : Fs.followAll env s (follow env s d c) cs = p := hend
      have hdeep := h.depth_le hdepth cs (h.follow_found hd hc hway) hrestVisible hrest
        (by rw [hback]; exact hpdir)
      rw [hback, hchild, if_neg hnil] at hdeep
      subst hsame
      have hne : child s d c ≠ noInode := fun hnone => hdeep.1.1.1 (hnone ▸ id_noInode)
      have hlen : u8 c.length = 0 := by
        by_contra hlen
        exact absurd (h.child_deeper hdepth hd hnofile hc hlen hdeep.1) (Nat.not_lt.mpr hdeep.2)
      have hself := (h.child_self hp hdir hlen).resolve_right hne
      have hrefreshed : refreshed d d p' = p' := if_pos rfl
      rw [hchild, if_neg hnil, hself, hrefreshed, follow, if_neg hdot]
      exact hx.lookup_self h hp hdir hlen hself
    · have hrefreshed : refreshed d p p' = d := if_neg hid
      unfold follow
      rw [hrefreshed, if_neg hdot, if_neg hdot]
      exact hx.lookup_other h hp hd hnofile hid hin

end

end AmateurOs.Fs
