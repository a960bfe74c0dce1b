/-
# Creating a file and deleting it

`fs_delete_file` undoes `fs_create_file`: the bitmaps, the entries in use and the sizes of the
directory are those of before, and the hints point at clear bits (`Undone`).  Both calls find the
directory, the entry, the inode and the bits by searches of their own, and the searches of the
second call come to what the first one wrote (`Creatable`), when the walk to the directory stays in
the tree of directories (`delete_undoes_create`).

A walk through a file can leave the tree, and come back to the directory that the file is created
in: there the name that was looked up can now begin the new one (`delete_undoes_nothing`).
-/
import Mathlib.Data.Nat.Find
import AmateurOs.Fs.Tree

namespace AmateurOs.Fs

open AmateurOs.Lib

/-! ## 1. The components of a path -/

/-- The last name of a path is one of its components. -/
theorem lastName_component (path : CString) : lastNameInPath path ∈ components path.chars := by
  by_cases hslash : slash ∈ path.chars
  · obtain ⟨hchars, hlast⟩ := chars_cut hslash
    have hcomponents : components path.chars = components path.cut.chars ++ [lastNameInPath path] := by
      conv_lhs => rw [hchars]
      rw [components_append, components_name hlast]
    rw [hcomponents]
    exact List.mem_append_right _ (List.mem_singleton_self _)
  · rw [lastName_whole hslash, components_name hslash]
    exact List.mem_singleton_self _

section

variable {path : CString} (hvisible : ∀ c ∈ components path.chars, c.head? ≠ some dot)

include hvisible

/-- The names on the way to the directory. -/
theorem visible_walked : ∀ c ∈ walked path.cut, Visible c := by
  intro c hc
  by_cases hslash : slash ∈ path.chars
  · have hchars := (chars_cut hslash).1
    have hcomponents : ∀ c ∈ components path.cut.chars, c ∈ components path.chars := by
      intro c hc
      rw [hchars, components_append]
      exact List.mem_append_left _ hc
    obtain ⟨c', hc', htaken⟩ := List.mem_flatMap.mp hc
    have hdot := hvisible c' (hcomponents c' hc')
    rw [takeApart_name hdot, List.mem_singleton] at htaken
    subst htaken
    exact ⟨fun x hx => path.cut.nonzero x ((components_mem _ c hc').2 x hx), hdot⟩
  · rw [walked_nil (cut_whole hslash)] at hc
    have hempty : c = [] := List.mem_singleton.mp hc
    rw [hempty]
    exact ⟨fun x hx => absurd hx List.not_mem_nil, by simp⟩

theorem plainLast (hne : lastNameInPath path ≠ []) : PlainLast path := by
  have hdot := hvisible _ (lastName_component path)
  refine ⟨hne, fun heq => hdot (heq ▸ rfl), fun hdots => hdot ?_⟩
  obtain ⟨rest, hrest⟩ := hdots
  rw [← hrest]
  rfl

end

/-! ## 2. The entry that is taken -/

/-- The scan for an unused entry stops at the first one, when the count of the entries allows it. -/
theorem scanSlots_first {tempBlock : Bytes} {total c : Nat} (hfree : entryId tempBlock c = 0)
    (hused : ∀ j < c, entryId tempBlock j ≠ 0) : ∀ fuel count n, count ≤ c → c < count + fuel →
      n + (c - count) < total →
        scanSlots tempBlock total fuel count n = (some c, n + (c - count)) := by
  intro fuel
  induction fuel with
  | zero =>
    intro count n hle hlt
    omega
  | succ fuel ih =>
    intro count n hle hlt htotal
    unfold scanSlots
    rw [if_pos (by omega)]
    by_cases heq : count = c
    · subst heq
      rw [if_neg (not_not_intro hfree), Nat.sub_self, Nat.add_zero]
    · have hsum : n + 1 + (c - (count + 1)) = n + (c - count) := by omega
      rw [if_pos (hused count (by omega)), ih (count + 1) (n + 1) (by omega) (by omega) (by omega),
        hsum]

/-- In a block that is not full there is a first unused entry. -/
theorem exists_slot {tempBlock : Bytes} (h : liveEntries tempBlock < dirEntriesPerBlock) :
    ∃ c ≤ liveEntries tempBlock, entryId tempBlock c = 0 ∧ ∀ j < c, entryId tempBlock j ≠ 0 := by
  have hex : ∃ c, c < dirEntriesPerBlock ∧ entryId tempBlock c = 0 := by
    by_contra hall
    push Not at hall
    have hfull : liveEntries tempBlock = dirEntriesPerBlock := by
      unfold liveEntries
      rw [List.countP_eq_length.mpr fun c hc => decide_eq_true (hall c (List.mem_range.mp hc)),
        List.length_range]
    omega
  obtain ⟨hlt, hzero⟩ := Nat.find_spec hex
  have hused : ∀ j < Nat.find hex, entryId tempBlock j ≠ 0 := fun j hj hzero =>
    Nat.find_min hex hj ⟨hj.trans hlt, hzero⟩
  refine ⟨Nat.find hex, ?_, hzero, hused⟩
  have hcount : (List.range (Nat.find hex)).countP (fun count => entryId tempBlock count ≠ 0) =
      Nat.find hex := by
    rw [List.countP_eq_length.mpr fun c hc => decide_eq_true (hused c (List.mem_range.mp hc)),
      List.length_range]
  calc Nat.find hex = _ := hcount.symm
    _ ≤ liveEntries tempBlock := (List.range_sublist.mpr (Nat.le_of_lt hlt)).countP_le

/-- An entry is in use when the count says so. -/
theorem liveEntries_pos {tempBlock : Bytes} (h : entryId tempBlock 0 ≠ 0) :
    0 < liveEntries tempBlock :=
  List.countP_pos_iff.mpr ⟨0, List.mem_range.mpr (by decide), decide_eq_true h⟩

section

variable {tempBlock tempBlock' : Bytes} {count id n : Nat} {name : List UInt8}

/-- An entry is written into the first 4096 bytes of the block alike. -/
theorem writeEntry_congr {p : Nat} (h : tempBlock p = tempBlock' p) :
    writeEntry tempBlock count id name p = writeEntry tempBlock' count id name p := by
  unfold writeEntry strcpyAt put32 blit
  rw [h]

/-- The name of an entry that is written. -/
theorem entryName_writeEntry {k : Nat} (hk : k ≤ name.length) :
    entryName (writeEntry tempBlock count id name) count k = cstr name (fun _ => 0) k := by
  unfold entryName writeEntry strcpyAt
  rw [slice_apply]
  exact blit_add (Nat.lt_succ_of_le hk)

/-- The other entries keep theirs, because it fits. -/
theorem entryName_writeEntry_ne (hname : name.length < 60) (hn : n ≠ count) {k : Nat} (hk : k < 60) :
    entryName (writeEntry tempBlock count id name) n k = entryName tempBlock n k := by
  unfold entryName writeEntry strcpyAt dirEntrySize
  rw [slice_apply, slice_apply, blit_out (by omega), put32_out (by omega)]

theorem entryName_clearEntry_ne (hn : n ≠ count) {k : Nat} (hk : k < 60) :
    entryName (clearEntry tempBlock count) n k = entryName tempBlock n k := by
  unfold entryName clearEntry dirEntrySize
  rw [slice_apply, slice_apply, blit_out (by omega)]

/-- The entries of a block that was put on the volume. -/
theorem entry_putBlock {v : Volume} {b : Nat} (hn : n < dirEntriesPerBlock) :
    entryId ((v.putBlock b tempBlock).content b) n = entryId tempBlock n ∧
      ∀ k < 60, entryName ((v.putBlock b tempBlock).content b) n k = entryName tempBlock n k := by
  have hbyte : ∀ p < 4096, (v.putBlock b tempBlock).content b p = tempBlock p := by
    intro p hp
    show Function.update v.content b (fun p => if p < 4096 then tempBlock p else 0) b p = _
    rw [Function.update_self, if_pos hp]
  unfold dirEntriesPerBlock at hn
  constructor
  · unfold entryId dirEntrySize
    exact le32_congr fun k hk => hbyte _ (by omega)
  · intro k hk
    unfold entryName dirEntrySize
    rw [slice_apply, slice_apply]
    exact hbyte _ (by omega)

end

theorem putBlock_congr {v : Volume} {b : Nat} {tempBlock tempBlock' : Bytes}
    (h : ∀ p < 4096, tempBlock p = tempBlock' p) :
    v.putBlock b tempBlock = v.putBlock b tempBlock' := by
  have hpage : (fun p => if p < 4096 then tempBlock p else 0) =
      fun p => if p < 4096 then tempBlock' p else 0 := by
    funext p
    split
    · next hp => exact h p hp
    · rfl
  unfold Volume.putBlock
  rw [hpage]

/-- **The entry, the directory and the superblock**, as `fs_create_file` leaves them on the
volume. -/
theorem volume_enterFile {s : State} {parent : Inode} {id b count : Nat} {name : List UInt8}
    (hl : s.superblock.layout.Sound) (hcap : parent.id < s.superblock.layout.capacity)
    (hs : s.superblock.layout.Shown b) (hb : b < diskBlocks)
    (hblocks : directBlocks s.superblock parent = [b])
    (hfree : entryId (s.volume.content b) count = 0)
    (hused : ∀ j < count, entryId (s.volume.content b) j ≠ 0) (hcount : count < dirEntriesPerBlock)
    (htotal : count < parent.sizeBytes / dirEntrySize) :
    (enterFile s parent id name).volume = (s.volume.putInode parent.id parent).putBlock b
      (writeEntry (s.volume.content b) count id name) := by
  have hstore : volume s.superblock.layout (updateInodeOnDisk s parent).disk =
      s.volume.putInode parent.id parent := volume_storeInode hl hcap
  have hread : ∀ n < dirEntriesPerBlock,
      entryId (readBlock (updateInodeOnDisk s parent).disk (fun _ => 0) b) n =
        entryId (s.volume.content b) n := by
    intro n hn
    rw [@entryId_content s.superblock.layout _ _ b n hs hb hn, hstore]
    rfl
  have hslot : findSlot (updateInodeOnDisk s parent).disk (parent.sizeBytes / dirEntrySize)
      (directBlocks (updateInodeOnDisk s parent).superblock parent) 0 = some (b, count) := by
    have hdirect : directBlocks (updateInodeOnDisk s parent).superblock parent = [b] := hblocks
    have hscan := scanSlots_first ((hread count hcount).trans hfree)
      (fun j hj => by rw [hread j (hj.trans hcount)]; exact hused j hj) dirEntriesPerBlock 0 0
      (Nat.zero_le _) (by omega) (by omega : 0 + (count - 0) < parent.sizeBytes / dirEntrySize)
    rw [hdirect]
    unfold findSlot
    rw [hscan]
  have hpage : ∀ p < 4096, writeEntry (readBlock (updateInodeOnDisk s parent).disk (fun _ => 0) b)
      count id name p = writeEntry (s.volume.content b) count id name p := by
    intro p hp
    refine writeEntry_congr ?_
    rw [volume_readBlock hs hb hp, hstore]
    rfl
  have hadd : addEntry (updateInodeOnDisk s parent) parent id name =
      { updateInodeOnDisk s parent with
        disk := writeBlock (updateInodeOnDisk s parent).disk b (writeEntry
          (readBlock (updateInodeOnDisk s parent).disk (fun _ => 0) b) count id name) } := by
    unfold addEntry
    rw [hslot]
  unfold enterFile
  rw [hadd, volume_updateSuperblock]
  · show volume s.superblock.layout (writeBlock _ b _) = _
    rw [volume_writeBlock hl hs hb, hstore, putBlock_congr hpage]
  · exact hl

/-! ## 3. What is undone -/

/-- **A file can be created** at a path that does not resolve: its components do not begin with a
dot, its name fits, its directory has one block with room, and two numbers are left of each
kind. -/
structure Creatable (env : Env) (s : State) (path : CString) : Prop where
  inodeHint : s.superblock.firstFreeInodeBit < s.superblock.layout.capacity ∧
    s.volume.inodeBit s.superblock.firstFreeInodeBit = false
  dataHint : s.superblock.layout.dataArea ≤ s.superblock.firstFreeDataBit ∧
    s.superblock.firstFreeDataBit < s.superblock.layout.dataBits ∧
    s.volume.dataBit s.superblock.firstFreeDataBit = false
  anotherInode : ∃ i < s.superblock.layout.inodeBits, i ≠ s.superblock.firstFreeInodeBit ∧
    s.volume.inodeBit i = false
  anotherBlock : ∃ b < s.superblock.layout.dataBits, b ≠ s.superblock.firstFreeDataBit ∧
    s.volume.dataBit b = false
  visible : ∀ c ∈ components path.chars, c.head? ≠ some dot
  nonempty : lastNameInPath path ≠ []
  fits : (lastNameInPath path).length ≤ 59
  unresolved : (inodeFromPath env s path).id = 0
  parent : (parentInodeFromPath env s path).id ≠ 0
  directory : (parentInodeFromPath env s path).type = filetypeDir
  room : ∃ b, directBlocks s.superblock (parentInodeFromPath env s path) = [b] ∧
    liveEntries (s.volume.content b) < 63

/-- An entry is the same, as far as it is in use. -/
def SameLive (tempBlock tempBlock' : Bytes) (count : Nat) : Prop :=
  entryId tempBlock' count = entryId tempBlock count ∧
    (entryId tempBlock count ≠ 0 → ∀ k < 60,
      entryName tempBlock' count k = entryName tempBlock count k)

/-- **The call undid the creation** of the inode `new` in the directory `parent`. -/
structure Undone (s : State) (parent new : Inode) (result : Bool × State) : Prop where
  succeeds : result.1 = true
  inodeBit : result.2.volume.inodeBit = s.volume.inodeBit
  dataBit : result.2.volume.dataBit = s.volume.dataBit
  entries : ∀ b, parent.Holds b → ∀ n < dirEntriesPerBlock,
    SameLive (s.volume.content b) (result.2.volume.content b) n
  sizeBytes : (result.2.volume.inode parent.id).sizeBytes = (s.volume.inode parent.id).sizeBytes
  sizeSectors : (result.2.volume.inode parent.id).sizeSectors =
    (s.volume.inode parent.id).sizeSectors
  inodes : ∀ i, i ≠ parent.id → i ≠ new.id → result.2.volume.inode i = s.volume.inode i
  blocks : ∀ b, ¬ parent.Holds b → ¬ new.Holds b →
    result.2.volume.content b = s.volume.content b
  inodeHint : result.2.volume.inodeBit result.2.superblock.firstFreeInodeBit = false
  dataHint : result.2.volume.dataBit result.2.superblock.firstFreeDataBit = false

/-- **The walk to the directory stays in the tree.** -/
def InTree (env : Env) (s : State) (path : CString) : Prop :=
  OnTheWay env s (startInode s path.chars) (walked path.cut)

/-! ## 4. The checks -/

section

variable {path : CString} (hvisible : ∀ c ∈ components path.chars, c.head? ≠ some dot)
  (hname : lastNameInPath path ≠ [])

include hvisible

/-- The first character of the path is no dot. -/
theorem bytes_first : path.bytes 0 ≠ dot := by
  intro hdot
  rcases hchars : path.chars with - | ⟨a, rest⟩
  · unfold CString.bytes at hdot
    rw [hchars] at hdot
    exact absurd (show (0 : UInt8) = dot from hdot) (by decide)
  · unfold CString.bytes at hdot
    rw [hchars, cstr_cons_zero] at hdot
    obtain ⟨cs, hfirst, -⟩ := components_head path.chars
    refine hvisible _ (hfirst ▸ List.mem_cons_self) ?_
    rw [hchars, hdot]
    rfl

omit hvisible

include hname

/-- The path is not a single slash. -/
theorem bytes_second : ¬ (path.bytes 0 = slash ∧ path.bytes 1 = 0) := by
  rintro ⟨hslash, hend⟩
  unfold CString.bytes at hslash hend
  rcases hchars : path.chars with - | ⟨a, - | ⟨b, rest⟩⟩
  · rw [hchars] at hslash
    exact absurd (show (0 : UInt8) = slash from hslash) (by decide)
  · rw [hchars, cstr_cons_zero] at hslash
    refine hname ?_
    unfold lastNameInPath
    rw [hchars, hslash]
    rfl
  · rw [hchars, cstr_cons_succ, cstr_cons_zero] at hend
    exact path.nonzero b (by rw [hchars]; exact List.mem_cons_of_mem a List.mem_cons_self) hend

include hvisible

theorem createRefused_visible (env : Env) : createRefused env path = false := by
  have hfirst := bytes_first hvisible
  have hsecond := bytes_second hname
  have hdot : memcmpEq path.bytes (cstr [dot] env.afterDot) 2 = false := by
    unfold memcmpEq memcmpLoop
    rw [if_neg (by decide), cstr_cons_zero, if_neg hfirst]
  have hdots : memcmpEq path.bytes (cstr [dot, dot] env.afterDotDot) 3 = false := by
    unfold memcmpEq memcmpLoop
    rw [if_neg (by decide), cstr_cons_zero, if_neg hfirst]
  have hslash : memcmpEq path.bytes (cstr [slash] env.afterSlash) 2 = false := by
    unfold memcmpEq memcmpLoop
    rw [if_neg (by decide), cstr_cons_zero]
    split
    · next h0 =>
      unfold memcmpLoop
      exact if_neg fun h1 => hsecond ⟨h0, h1⟩
    · rfl
  unfold createRefused
  rw [hdot, hdots, hslash]
  rfl

theorem specialPath_visible : specialPath path = false := by
  have hfirst := bytes_first hvisible
  have hsecond := bytes_second hname
  have hdifferent : ∀ {string2 : Bytes} {len : Nat}, string2 0 = dot → 0 < u8 len →
      strncmpEq path.bytes string2 len = false := by
    intro string2 len hdot hpos
    obtain ⟨m, hm⟩ := Nat.exists_eq_succ_of_ne_zero (Nat.ne_of_gt hpos)
    unfold strncmpEq
    rw [hm]
    unfold strncmpLoop
    rw [hdot, if_neg fun hand => hfirst hand.2.2]
    exact beq_eq_false_iff_ne.mpr hfirst
  have hslash : strncmpEq path.bytes (cstr [slash] fun _ => 0) 2 = false := by
    have hlen : u8 2 = 2 := rfl
    unfold strncmpEq
    rw [hlen]
    unfold strncmpLoop
    rw [cstr_cons_zero]
    split
    · next hand =>
      unfold strncmpLoop
      rw [if_neg fun hand' => hand'.2.1 rfl]
      exact beq_eq_false_iff_ne.mpr fun h1 => hsecond ⟨hand.2.2, h1⟩
    · next hnot =>
      refine beq_eq_false_iff_ne.mpr fun h0 => hnot ⟨?_, by decide, h0⟩
      rw [h0]
      decide
  unfold specialPath
  rw [hslash, hdifferent rfl (by decide), hdifferent rfl (by decide)]
  rfl

end

/-! ## 5. The directory before -/

/-- **The entry that is taken** in a directory of one block. -/
structure Slot (s : State) (d : Inode) (b count : Nat) : Prop where
  blocks : directBlocks s.superblock d = [b]
  unused : entryId (s.volume.content b) count = 0
  first : ∀ j < count, entryId (s.volume.content b) j ≠ 0
  own : entryId (s.volume.content b) 0 = d.id
  size : d.sizeBytes = dirEntrySize * liveEntries (s.volume.content b)
  sectors : d.sizeSectors = bytesToSectors d.sizeBytes
  count : count ≤ liveEntries (s.volume.content b)
  room : liveEntries (s.volume.content b) < 63

theorem SameExtents.directBlocks {i j : Inode} (h : SameExtents i j) {sb : Superblock}
    (hext : sb.directExtentsPerInode = 4) :
    Fs.directBlocks sb i = Fs.directBlocks sb j := by
  unfold Fs.directBlocks
  rw [hext]
  refine List.flatMap_congr fun k hk => ?_
  unfold extentBlocks
  rw [h.extentFirst (List.mem_range.mp hk), h.extentLength (List.mem_range.mp hk)]

theorem directBlocks_layout {sb sb' : Superblock} (h : sb'.layout = sb.layout) (d : Inode) :
    directBlocks sb' d = directBlocks sb d := by
  have hextents : sb'.directExtentsPerInode = sb.directExtentsPerInode :=
    congrArg Layout.directExtents h
  unfold directBlocks
  rw [hextents]

/-- Without wrapping, the two loops over the blocks go the same way. -/
theorem indexedBlocks_direct {sb : Superblock} {inode : Inode} (hl : sb.layout.Sound)
    (hplaced : inode.Placed sb.layout) (hbits : sb.layout.dataBits ≤ diskBlocks) :
    indexedBlocks sb inode = directBlocks sb inode := by
  have hext : sb.directExtentsPerInode = 4 := hl.extents
  unfold diskBlocks at hbits
  unfold indexedBlocks directBlocks
  rw [hext]
  refine List.flatMap_congr fun k hk => ?_
  have hk := List.mem_range.mp hk
  have hwrap : ∀ j < inode.extentLength k,
      u32 (inode.extentFirst k + j) = inode.extentFirst k + j := by
    intro j hj
    have hlt := (hplaced (inode.extentFirst k + j) ⟨k, hk, by omega, by omega⟩).2
    exact u32_eq (by omega)
  have hmap : (List.range (inode.extentLength k)).map (fun j => u32 (inode.extentFirst k + j)) =
      List.range' (inode.extentFirst k) (inode.extentLength k) := by
    rw [List.range'_eq_map_range]
    exact List.map_congr_left fun j hj => hwrap j (List.mem_range.mp hj)
  have hfirst : inode.extentFirst k < 4294967296 := Packed.get32_lt _ _
  unfold extentBlocks
  rw [hmap]
  congr 1
  rcases Nat.eq_zero_or_pos (inode.extentLength k) with hzero | hpos
  · rw [hzero, Nat.add_zero, u32_eq hfirst, Nat.sub_self]
  · have hlast := hwrap (inode.extentLength k - 1) (by omega)
    have hlt := (hplaced (inode.extentFirst k + (inode.extentLength k - 1))
      ⟨k, hk, by omega, by omega⟩).2
    rw [u32_eq (by omega)]
    omega

namespace Slot

variable {s : State} {d : Inode} {b count : Nat} (hslot : Slot s d b count)

include hslot

theorem live_pos (hd : d.id ≠ 0) : 0 < liveEntries (s.volume.content b) :=
  liveEntries_pos (hslot.own ▸ hd)

theorem count_lt : count < dirEntriesPerBlock := by
  have hcount := hslot.count
  have hroom := hslot.room
  unfold dirEntriesPerBlock
  omega

/-- The first entry is the directory's own. -/
theorem count_pos (hd : d.id ≠ 0) : 0 < count := by
  refine Nat.pos_of_ne_zero fun hzero => hd ?_
  have hunused := hslot.unused
  rw [hzero] at hunused
  exact hslot.own.symm.trans hunused

/-- The block is searched, before and after the entry is added. -/
theorem searched (hd : d.id ≠ 0) {d' : Inode} (hblocks : directBlocks s.superblock d' = [b])
    (hsize : d'.sizeBytes = d.sizeBytes ∨ d'.sizeBytes = d.sizeBytes + dirEntrySize) :
    searchedBlocks s.superblock d' = [b] := by
  have hpos := hslot.live_pos hd
  have hroom := hslot.room
  have hlive := hslot.size
  have hone : bytesToBlocks d'.sizeBytes = 1 := by
    rw [bytesToBlocks_eq]
    unfold dirEntrySize at *
    omega
  have htake : searchedBlocks s.superblock d' =
      (directBlocks s.superblock d').take (bytesToBlocks d'.sizeBytes) := rfl
  rw [htake, hblocks, hone]
  rfl

theorem holds (hl : s.superblock.layout.Sound) : d.Holds b :=
  holds_of_mem_directBlocks hl.extents (hslot.blocks ▸ List.mem_cons_self)

end Slot

section

variable {env : Env} {s : State} {path : CString} (h : WellFormed s) (hc : Creatable env s path)
  (hway : InTree env s path)

include h

theorem WellFormed.rootInode_loaded : s.rootInode = inodeFromId s 1 :=
  h.toSane.rootInode_loaded h.rootNumber

include hc hway

theorem Creatable.parent_onDisk : OnDisk s (parentInodeFromPath env s path) := by
  have hfound := (h.followAll_descend (walked path.cut) (Or.inr (h.start path.chars))
    (visible_walked hc.visible) hway)
  have hne := hc.parent
  rw [parentInodeFromPath_way env s path h.rootInode_loaded, hfound.1] at hne ⊢
  exact hfound.2.onDisk hne

theorem Creatable.slot : ∃ b count, Slot s (parentInodeFromPath env s path) b count := by
  have hp := hc.parent_onDisk h hway
  have hdir : IsDir s (parentInodeFromPath env s path).id := ⟨hp.carries, hp.2.symm ▸ hc.directory⟩
  obtain ⟨b, hblocks, hroom⟩ := hc.room
  obtain ⟨count, hcount, hunused, hfirst⟩ := exists_slot (Nat.lt_trans hroom (by decide))
  have hsize := h.sizeBytes _ hdir
  have hsectors := h.sizeSectors _ hdir
  have hown := h.self _ hdir b [] (hp.2.symm ▸ hblocks)
  rw [hp.2] at hsize hsectors
  rw [hblocks, List.map_singleton, List.sum_singleton] at hsize
  exact ⟨b, count, hblocks, hunused, hfirst, hown, hsize, hsectors, hcount, hroom⟩

/-- **No entry of the directory begins with the name.** -/
theorem Creatable.unmatched {b count : Nat} (hslot : Slot s (parentInodeFromPath env s path) b count) :
    ∀ n < dirEntriesPerBlock,
      entryMatches (s.volume.content b) (lastNameInPath path) n = false := by
  have hp := hc.parent_onDisk h hway
  have hplain := plainLast hc.visible hc.nonempty
  have hunresolved := hc.unresolved
  rw [inodeFromPath_last h.rootInode_loaded hplain.notDotted, hplain.follow] at hunresolved
  have hdir := hc.directory
  generalize parentInodeFromPath env s path = p at *
  have hold := hslot.holds h.sound
  obtain ⟨⟨hshown, hlt⟩, -⟩ := h.block hp hold
  have hinOrder := h.entries_inOrder hp hdir hold
  have hsearched := hslot.searched hp.1 hslot.blocks (Or.inl rfl)
  have hnonzero : ∀ x ∈ lastNameInPath path, x ≠ 0 := fun x hx =>
    path.nonzero x ((List.rtakeWhile_suffix _ _).subset hx)
  have hlen : u8 (lastNameInPath path).length ≠ 0 := by
    have hpos := List.length_pos_of_ne_nil hc.nonempty
    have hfits := hc.fits
    unfold u8
    omega
  generalize lastNameInPath path = name at *
  intro n hn
  by_contra hmatch
  rw [Bool.not_eq_false] at hmatch
  -- the first entry that begins with the name is in use, and is found
  have hfirst : scanNames (s.volume.content b) name < dirEntriesPerBlock := by
    refine Nat.lt_of_le_of_lt (Nat.le_of_not_lt fun hgt => ?_) hn
    rw [scanNames_first hgt] at hmatch
    cases hmatch
  have hfound := scanNames_matches hfirst
  have hname := entryName_of_matches hnonzero hlen hfound
  have hcarries := (hinOrder _ hfirst).leads.resolve_left fun hunused => by
    rw [hunused.2] at hname
    exact hnonzero 0 (List.mem_of_mem_head? hname.symm) rfl
  have hin : InEntries env s p name := by
    intro front b' back hsplit _ id _
    have hb' : b' ∈ [b] := hsearched ▸ hsplit ▸ List.mem_append_right front List.mem_cons_self
    obtain rfl := List.mem_singleton.mp hb'
    have hscan := @scanNames_content s.superblock.layout s.disk env.afterTempBlock b' hshown hlt
      (fun n hn => (hinOrder n hn).ends) name
    rw [hscan]
    exact hfirst
  have hchild : child s p name =
      s.volume.inode (entryId (s.volume.content b) (scanNames (s.volume.content b) name)) := by
    have hblock : findInBlock (s.volume.content b) name =
        some (entryId (s.volume.content b) (scanNames (s.volume.content b) name)) := by
      unfold findInBlock
      simp only [hfound, hcarries.1, Bool.not_true, Bool.false_eq_true, or_self, if_false]
    unfold child sought
    rw [hsearched, List.findSome?_cons, hblock]
  rw [h.lookup_child (Or.inr hp) (Or.inr hdir) hin, hchild, hcarries.2] at hunresolved
  exact hcarries.1 hunresolved

end

/-! ## 6. The disk between the calls -/

/-- **What the creation leaves**: a number and a block are taken, the new inode and the directory
are stored, and the entry is written. -/
structure Entered (env : Env) (s t : State) (p : Inode) (b count : Nat) (name : List UInt8) :
    Prop where
  layout : t.superblock.layout = s.superblock.layout
  inodeBit : t.volume.inodeBit =
    Function.update s.volume.inodeBit s.superblock.firstFreeInodeBit true
  dataBit : t.volume.dataBit = Function.update s.volume.dataBit s.superblock.firstFreeDataBit true
  inode : t.volume.inode = Function.update (Function.update s.volume.inode
    s.superblock.firstFreeInodeBit (createdInode env s)) p.id (enlarged env p)
  content : t.volume.content =
    (s.volume.putBlock b (writeEntry (s.volume.content b) count (createdInode env s).id name)).content
  root : t.rootInode = refreshed s.rootInode p (enlarged env p)
  current : t.currentDirInode = refreshed s.currentDirInode p (enlarged env p)
  inodeHint : s.volume.inodeBit t.superblock.firstFreeInodeBit = false
  dataHint : s.volume.dataBit t.superblock.firstFreeDataBit = false

theorem id_createdInode (env : Env) (s : State) :
    (createdInode env s).id = s.superblock.firstFreeInodeBit :=
  (id_newInode ..).trans (u32_eq (Packed.get32_lt _ _))

/-- The next hint is a clear bit, which is not the one that was taken. -/
theorem IsNext.another {bit : Nat → Bool} {n a next c : Nat}
    (h : IsNext (Function.update bit a true) n next) (hn : n ≤ 32768) (hc : c < n) (hne : c ≠ a)
    (hclear : bit c = false) : bit next = false := by
  have hclear' : Function.update bit a true c = false := by rw [Function.update_of_ne hne, hclear]
  have hnext := (h.least hc (Nat.lt_of_lt_of_le hc hn) hclear').2.1
  by_cases heq : next = a
  · rw [heq, Function.update_self] at hnext
    cases hnext
  · rwa [Function.update_of_ne heq] at hnext

theorem sizeBytes_enlarged (env : Env) {p : Inode} (h : p.sizeBytes + dirEntrySize < 4294967296) :
    (enlarged env p).sizeBytes = p.sizeBytes + dirEntrySize := by
  have htime : ∀ i : Inode, (i.setTimestamp (env.clock 1)).sizeBytes = i.sizeBytes := fun _ =>
    (Packed.same_setPart (by decide)).get32
  unfold enlarged
  rw [htime, Inode.sizeBytes_setSizeSectors, Inode.sizeBytes_setSizeBytes, u32_eq h, u32_eq h]

/-- A directory with a slot gets one entry larger. -/
theorem Slot.size_enlarged {s : State} {p : Inode} {b count : Nat} (hslot : Slot s p b count)
    (env : Env) : (enlarged env p).sizeBytes = p.sizeBytes + dirEntrySize := by
  refine sizeBytes_enlarged env ?_
  have hroom := hslot.room
  rw [hslot.size]
  unfold dirEntrySize
  omega

theorem sizes_reduced (i : Inode) :
    (reduced i).sizeBytes = sub32 i.sizeBytes dirEntrySize ∧
      (reduced i).sizeSectors = u32 (bytesToSectors (sub32 i.sizeBytes dirEntrySize)) := by
  have hword : u32 (sub32 i.sizeBytes dirEntrySize) = sub32 i.sizeBytes dirEntrySize :=
    u32_eq (u32_lt _)
  have hsectors : ∀ (j : Inode) (v : Nat), (j.setSizeSectors v).sizeSectors = u32 v := fun j v =>
    @Packed.get32_set32 64 j 9 v (by decide)
  unfold reduced
  simp only [Inode.sizeBytes_setSizeSectors, Inode.sizeBytes_setSizeBytes, hword, hsectors, and_self]

/-- One entry larger and one smaller again. -/
theorem Slot.sizes_back {s : State} {p : Inode} {b count : Nat} (hslot : Slot s p b count)
    (env : Env) : (reduced (enlarged env p)).sizeBytes = p.sizeBytes ∧
      (reduced (enlarged env p)).sizeSectors = p.sizeSectors := by
  have hsize := hslot.size_enlarged env
  have hword : (enlarged env p).sizeBytes < 4294967296 := Packed.get32_lt _ _
  have hback : sub32 (enlarged env p).sizeBytes dirEntrySize = p.sizeBytes := by
    rw [sub32_eq hword (by rw [hsize]; exact Nat.le_add_left _ _), hsize, Nat.add_sub_cancel]
  have hsectorsWord : bytesToSectors p.sizeBytes < 4294967296 := by
    rw [← hslot.sectors]
    exact Packed.get32_lt _ _
  obtain ⟨hbytes, hsectors⟩ := sizes_reduced (enlarged env p)
  rw [hback] at hbytes hsectors
  exact ⟨hbytes, by rw [hsectors, u32_eq hsectorsWord, hslot.sectors]⟩

section

variable {env : Env} {s : State} {path : CString} (h : WellFormed s) (hc : Creatable env s path)
  (hway : InTree env s path)

include h hc

theorem Creatable.numbers : s.superblock.firstFreeInodeBit ≠ 0 ∧
    s.superblock.firstFreeInodeBit < s.superblock.layout.capacity ∧
    s.superblock.firstFreeDataBit ≠ 0 := by
  refine ⟨fun hzero => ?_, hc.inodeHint.1, fun hzero => ?_⟩
  · have hclear := hc.inodeHint.2
    rw [hzero, h.zeroth] at hclear
    cases hclear
  · have harea := hc.dataHint.1
    have hfront := h.sound.superblock
    have hone := h.sound.inodeBitmap
    have htwo := h.sound.dataBitmap
    have hthree := h.sound.inodeArea
    omega

include hway

/-- **The creation.** -/
theorem Creatable.entered {b count : Nat}
    (hslot : Slot s (parentInodeFromPath env s path) b count) :
    (fsCreateFile env s path).1 = createdInode env s ∧
      Entered env s (fsCreateFile env s path).2 (parentInodeFromPath env s path) b count
        (lastNameInPath path) := by
  obtain ⟨hinode, hcap, hdata⟩ := hc.numbers h
  have halloc : Allocated env s (allocate env s) := h.toSane.allocated hinode hcap hdata
  have hp := hc.parent_onDisk h hway
  have hneeds : needsBlock (parentInodeFromPath env s path) = false := by
    have hpos := hslot.live_pos hp.1
    have hroom := hslot.room
    unfold needsBlock
    rw [hslot.size, bytesToBlocks_eq, bytesToBlocks_eq, u32_eq (by unfold dirEntrySize; omega)]
    unfold dirEntrySize
    exact decide_eq_false (by omega)
  rw [fsCreateFile_eq (createRefused_visible hc.visible hc.nonempty env) hc.parent]
  simp only [hneeds, Bool.false_eq_true, if_false]
  refine ⟨trivial, ?_⟩
  generalize parentInodeFromPath env s path = p at *
  have hsame := sameExtents_enlarged env p
  have hold := hslot.holds h.sound
  obtain ⟨⟨hshown, hlt⟩, -⟩ := h.block hp hold
  have hcontent := halloc.content hcap
  have hsize := hslot.size_enlarged env
  have hvol : (enterFile (allocate env s) (enlarged env p) (createdInode env s).id
      (lastNameInPath path)).volume = ((allocate env s).volume.putInode p.id
        (enlarged env p)).putBlock b (writeEntry (s.volume.content b) count (createdInode env s).id
          (lastNameInPath path)) := by
    have hblocks : directBlocks (allocate env s).superblock (enlarged env p) = [b] := by
      rw [directBlocks_layout halloc.layout, hsame.directBlocks h.sound.extents, hslot.blocks]
    have htotal : count < (enlarged env p).sizeBytes / dirEntrySize := by
      have hcount := hslot.count
      rw [hsize, hslot.size]
      unfold dirEntrySize
      omega
    have hsound : (allocate env s).superblock.layout.Sound := by
      rw [halloc.layout]
      exact h.sound
    have hshown' : (allocate env s).superblock.layout.Shown b := by
      rw [halloc.layout]
      exact hshown
    have hstored := @volume_enterFile (allocate env s) (enlarged env p) (createdInode env s).id b
      count (lastNameInPath path) hsound (by rw [hsame.id, halloc.layout]; exact hp.carries.lt)
      hshown' hlt hblocks (by rw [hcontent]; exact hslot.unused)
      (by rw [hcontent]; exact hslot.first) hslot.count_lt htotal
    rw [hstored, hcontent, hsame.id]
  obtain ⟨disk, hadd, -⟩ := addEntry_disk (updateInodeOnDisk (allocate env s) (enlarged env p))
    (enlarged env p) (createdInode env s).id (lastNameInPath path)
  have hsuper : (enterFile (allocate env s) (enlarged env p) (createdInode env s).id
      (lastNameInPath path)).superblock = (allocate env s).superblock := by
    unfold enterFile
    rw [hadd]
    rfl
  obtain ⟨i, hi, hine, hiclear⟩ := hc.anotherInode
  obtain ⟨c, hcbits, hcne, hcclear⟩ := hc.anotherBlock
  have hinodeBits : s.superblock.layout.inodeBits ≤ 32768 := by
    unfold Layout.inodeBits
    rw [h.inodeBitmap, Nat.one_mul]
  refine ⟨?_, ?_, ?_, ?_, ?_, ?_, ?_, ?_, ?_⟩
  · rw [hsuper, halloc.layout]
  · rw [hvol]
    exact halloc.inodeBit
  · rw [hvol]
    exact halloc.dataBit
  · rw [hvol]
    show Function.update (allocate env s).volume.inode p.id (enlarged env p) = _
    rw [halloc.inode, if_pos hcap]
  · rw [hvol]
    show Function.update (allocate env s).volume.content b _ = _
    rw [hcontent]
    rfl
  · unfold enterFile refreshed
    rw [hadd, ← hsame.id]
    show (if (allocate env s).rootInode.id = _ then _ else (allocate env s).rootInode) = _
    rw [halloc.rootInode]
  · unfold enterFile refreshed
    rw [hadd, ← hsame.id]
    show (if (allocate env s).currentDirInode.id = _ then _ else
      (allocate env s).currentDirInode) = _
    rw [halloc.currentDirInode]
  · rw [hsuper]
    exact (halloc.inodeBit ▸ halloc.inodeNext).another hinodeBits hi hine hiclear
  · rw [hsuper]
    exact (halloc.dataBit ▸ halloc.dataNext).another (Nat.le_of_eq h.dataBits) hcbits hcne hcclear

end

/-! ## 7. The second walk -/

section

variable {env env' : Env} {s t : State} {path : CString} {b count : Nat} (h : WellFormed s)
  (hc : Creatable env s path) (hway : InTree env s path) (hway' : InTree env' s path)
  (hslot : Slot s (parentInodeFromPath env s path) b count)
  (he : Entered env s t (parentInodeFromPath env s path) b count (lastNameInPath path))

include h hc hway hslot he

/-- The entries of the block with the new one. -/
theorem Entered.entries {n : Nat} (hn : n < dirEntriesPerBlock) (hne : n ≠ count) :
    entryId (t.volume.content b) n = entryId (s.volume.content b) n ∧
      ∀ k < 60, entryName (t.volume.content b) n k = entryName (s.volume.content b) n k := by
  have hfits := hc.fits
  obtain ⟨hid, hname⟩ := @entry_putBlock (writeEntry (s.volume.content b) count
    (createdInode env s).id (lastNameInPath path)) n s.volume b hn
  rw [he.content, hid, entryId_writeEntry_ne (by omega) hne]
  exact ⟨rfl, fun k hk => by rw [hname k hk, entryName_writeEntry_ne (by omega) hne hk]⟩

theorem Entered.entry : entryId (t.volume.content b) count = s.superblock.firstFreeInodeBit ∧
    ∀ k ≤ (lastNameInPath path).length,
      entryName (t.volume.content b) count k = cstr (lastNameInPath path) (fun _ => 0) k := by
  have hfits := hc.fits
  obtain ⟨hid, hname⟩ := @entry_putBlock (writeEntry (s.volume.content b) count
    (createdInode env s).id (lastNameInPath path)) count s.volume b hslot.count_lt
  have hnumber := id_createdInode env s
  rw [he.content, hid, entryId_writeEntry (hnumber ▸ Packed.get32_lt _ _), hnumber]
  rw [hnumber] at hname
  exact ⟨rfl, fun k hk => by rw [hname k (by omega), entryName_writeEntry hk]⟩

theorem Entered.extended : Extended s t (parentInodeFromPath env s path)
    (enlarged env (parentInodeFromPath env s path)) := by
  obtain ⟨hinode, hcap, hdata⟩ := hc.numbers h
  have hp := hc.parent_onDisk h hway
  have hsame := sameExtents_enlarged env (parentInodeFromPath env s path)
  have hsize := hslot.size_enlarged env
  have hentries := fun n => @Entered.entries env s t path b count h hc hway hslot he n
  have hsearched := hslot.searched hp.1 hslot.blocks (Or.inl rfl)
  generalize parentInodeFromPath env s path = p at *
  refine ⟨he.layout, hsame, ?_, fun i hi => ?_, fun b' hb' => ?_, fun b' bs hb' => ?_⟩
  · rw [hsearched]
    exact hslot.searched hp.1 (by rw [hsame.directBlocks h.sound.extents, hslot.blocks])
      (Or.inr hsize)
  · have hne : i ≠ s.superblock.firstFreeInodeBit := fun heq =>
      h.toSane.not_carries hinode hcap hdata (heq ▸ hi)
    rw [he.inode, Function.update_apply, Function.update_of_ne hne]
  · have hne : b' ≠ b := fun heq => hb' (heq ▸ hslot.holds h.sound)
    rw [he.content]
    exact Function.update_of_ne hne _ _
  · rw [hsearched] at hb'
    obtain ⟨rfl, -⟩ := List.cons.inj hb'
    rw [(hentries 0 (by decide) (Nat.ne_of_lt (hslot.count_pos hp.1))).1]
    exact hslot.own

/-- The copy of the root directory. -/
theorem Entered.rootInode_loaded : t.rootInode = inodeFromId t 1 := by
  have hp := hc.parent_onDisk h hway
  have hx := Entered.extended h hc hway hslot he
  have hload := hx.load h hp h.first.1
  have hroot := h.rootInode_loaded
  unfold inodeFromId at hroot ⊢
  rw [if_neg (by decide)] at hroot ⊢
  rw [he.root, hload, hroot]

include hway'

/-- **The directory is found again.** -/
theorem Entered.parent : parentInodeFromPath env' t path =
    enlarged env (parentInodeFromPath env s path) := by
  have hp := hc.parent_onDisk h hway
  have hx := Entered.extended h hc hway hslot he
  have hstart : Found s (startInode s path.chars) := Or.inr (h.start path.chars)
  have hvisible := visible_walked hc.visible
  have hfirst := (h.followAll_descend (walked path.cut) hstart hvisible hway).1
  have hsecond := (h.followAll_descend (walked path.cut) hstart hvisible hway').1
  have hend : followAll env' s (startInode s path.chars) (walked path.cut) =
      parentInodeFromPath env s path := by
    rw [hsecond, ← hfirst, parentInodeFromPath_way env s path h.rootInode_loaded]
  have hstart' : startInode t path.chars = refreshed (startInode s path.chars)
      (parentInodeFromPath env s path) (enlarged env (parentInodeFromPath env s path)) := by
    unfold startInode
    split
    · exact he.root
    · exact he.current
  rw [parentInodeFromPath_way env' t path (Entered.rootInode_loaded h hc hway hslot he), hstart']
  exact hx.followAll h hp hc.directory (walked path.cut) hstart hvisible hway' hend

/-- **The new file is found.** -/
theorem Entered.file : inodeFromPath env' t path = createdInode env s := by
  obtain ⟨hinode, hcap, hdata⟩ := hc.numbers h
  have hp := hc.parent_onDisk h hway
  have hx := Entered.extended h hc hway hslot he
  have hfits := hc.fits
  have hplain := plainLast hc.visible hc.nonempty
  have hnonzero : ∀ x ∈ lastNameInPath path, x ≠ 0 := fun x hx =>
    path.nonzero x ((List.rtakeWhile_suffix _ _).subset hx)
  have hunmatched := hc.unmatched h hway hslot
  have hold := hslot.holds h.sound
  obtain ⟨⟨hshown, hlt⟩, -⟩ := h.block hp hold
  have hinOrder := h.entries_inOrder hp hc.directory hold
  have hshown' : t.superblock.layout.Shown b := he.layout ▸ hshown
  -- the entries in front of the new one do not begin with the name
  have hscan : scanNames (readBlock t.disk env'.afterTempBlock b) (lastNameInPath path) = count := by
    refine scanNames_eq hslot.count_lt ?_ fun j hj => ?_
    · refine (entryMatches_begins hnonzero (by omega)).mpr fun k hk => ?_
      have hname := (Entered.entry h hc hway hslot he).2 k (Nat.le_of_lt hk)
      rw [← @entryName_content t.superblock.layout t.disk env'.afterTempBlock b count hshown' hlt
        hslot.count_lt k (by omega)]
      exact hname.trans (cstr_lt hk)
    · have hj' := hj.trans hslot.count_lt
      have hsame := (Entered.entries h hc hway hslot he hj' (Nat.ne_of_lt hj)).2
      rw [← hunmatched j hj']
      refine (entryMatches_congr _ (fun k hk => ?_) (hinOrder j hj').ends).symm
      rw [← hsame k hk]
      exact @entryName_content t.superblock.layout t.disk env'.afterTempBlock b j hshown' hlt hj' k hk
  have hid : entryId (readBlock t.disk env'.afterTempBlock b) count =
      s.superblock.firstFreeInodeBit := by
    rw [← (Entered.entry h hc hway hslot he).1]
    exact entryId_content hshown' hlt hslot.count_lt
  have hblock : findInBlock (readBlock t.disk env'.afterTempBlock b) (lastNameInPath path) =
      some s.superblock.firstFreeInodeBit := by
    have hmatch := scanNames_matches (hscan ▸ hslot.count_lt)
    rw [hscan] at hmatch
    unfold findInBlock
    simp only [hscan, hid, hmatch, hinode, Bool.not_true, Bool.false_eq_true, or_self, if_false]
  have hsearched : searchedBlocks t.superblock (enlarged env (parentInodeFromPath env s path)) =
      [b] := by
    rw [searchedBlocks_layout he.layout, hx.searched]
    exact hslot.searched hp.1 hslot.blocks (Or.inl rfl)
  rw [inodeFromPath_last (Entered.rootInode_loaded h hc hway hslot he) hplain.notDotted,
    hplain.follow, Entered.parent h hc hway hway' hslot he]
  unfold inodeForNameInDirectory
  rw [hsearched, List.findSome?_cons, hblock]
  have hload : t.volume.inode s.superblock.firstFreeInodeBit =
      loadInode t.disk t.superblock s.superblock.firstFreeInodeBit :=
    volume_loadInode (he.layout ▸ h.sound) (he.layout ▸ hcap)
  have hne : s.superblock.firstFreeInodeBit ≠ (parentInodeFromPath env s path).id := fun heq =>
    h.toSane.not_carries hinode hcap hdata (heq ▸ hp.carries)
  show loadInode t.disk t.superblock s.superblock.firstFreeInodeBit = _
  rw [← hload, he.inode, Function.update_of_ne hne, Function.update_self]

end

/-! ## 8. The deletion -/

theorem refCount_createdInode (env : Env) (s : State) : (createdInode env s).refCount = 0 := by
  have hsame : Packed.Same (createdInode env s) noInode 61 1 := newInode_same env _ _ (by decide)
  exact hsame.get8.trans rfl

section

variable {env env' : Env} {s t : State} {path : CString} {b count : Nat} (h : WellFormed s)
  (hc : Creatable env s path) (hway : InTree env s path) (hway' : InTree env' s path)
  (hslot : Slot s (parentInodeFromPath env s path) b count)
  (he : Entered env s t (parentInodeFromPath env s path) b count (lastNameInPath path))

include h hc hway hslot he

omit hway hslot in
/-- The new file is released. -/
theorem Entered.released : Released t (releaseInode t (createdInode env s)) (createdInode env s) := by
  have hcap := hc.inodeHint.1
  have hid := id_createdInode env s
  refine releaseInode_released (he.layout ▸ h.sound) (he.layout ▸ h.dataBits_le)
    (by rw [hid, he.layout]; exact hcap)
    (by rw [hid, he.layout]; exact Nat.lt_of_lt_of_le hcap h.inodeBits) fun b' hb' => ?_
  obtain rfl := (holds_newInode (Packed.get32_lt _ _)).mp hb'
  rw [he.layout]
  exact ⟨hc.dataHint.1, hc.dataHint.2.1⟩

/-- The block of the directory is none of the file's. -/
theorem Entered.apart : ¬ (createdInode env s).Holds b := by
  intro hold
  have hp := hc.parent_onDisk h hway
  obtain rfl := (holds_newInode (Packed.get32_lt _ _)).mp hold
  have hmarked := h.marked _ hp.carries s.superblock.firstFreeDataBit
    (by rw [hp.2]; exact hslot.holds h.sound)
  rw [hc.dataHint.2.2] at hmarked
  cases hmarked

/-- The entries of the directory, read when the file is released. -/
theorem Entered.released_entries {n : Nat} (hn : n < dirEntriesPerBlock) :
    entryId (readBlock (releaseInode t (createdInode env s)).disk env'.afterTempBlock b) n =
        entryId (t.volume.content b) n ∧
      ∀ k < 60, entryName (readBlock (releaseInode t (createdInode env s)).disk
        env'.afterTempBlock b) n k = entryName (t.volume.content b) n k := by
  obtain ⟨⟨hshown, hlt⟩, -⟩ := h.block (hc.parent_onDisk h hway) (hslot.holds h.sound)
  have hcontent : (volume t.superblock.layout (releaseInode t (createdInode env s)).disk).content b =
      t.volume.content b :=
    (Entered.released h hc he).content b (Entered.apart h hc hway hslot he)
  rw [← hcontent]
  refine ⟨entryId_content (he.layout ▸ hshown) hlt hn, fun k hk => ?_⟩
  exact (entryName_content (he.layout ▸ hshown) hlt hn hk).symm

/-- **The entry is found again.** -/
theorem Entered.findEntry : Fs.findEntry env' (releaseInode t (createdInode env s))
    (enlarged env (parentInodeFromPath env s path)) (createdInode env s).id = some (b, count) := by
  obtain ⟨hinode, hcap, hdata⟩ := hc.numbers h
  have hp := hc.parent_onDisk h hway
  have hr := Entered.released h hc he
  have hsame := sameExtents_enlarged env (parentInodeFromPath env s path)
  have hold := hslot.holds h.sound
  have hinOrder := h.entries_inOrder hp hc.directory hold
  have hid := id_createdInode env s
  have hread := fun n hn => (@Entered.released_entries env env' s t path b count h hc hway hslot he n
    hn).1
  have hblocks : indexedBlocks (releaseInode t (createdInode env s)).superblock
      (enlarged env (parentInodeFromPath env s path)) = [b] := by
    rw [hr.superblock, indexedBlocks_direct (he.layout ▸ h.sound) ?_ (he.layout ▸ h.dataBits_le),
      directBlocks_layout he.layout, hsame.directBlocks h.sound.extents, hslot.blocks]
    intro b' hb'
    rw [he.layout]
    exact (h.onDisk_placed hp).2 b' ((hsame.holds b').mp hb')
  refine findEntry_some_iff.mpr ⟨[], [], hblocks, Nat.le_of_lt hslot.count_lt, ?_, fun j hj => ?_,
    fun b' hb' => absurd hb' List.not_mem_nil⟩
  · rw [hread count hslot.count_lt, hid]
    exact (Entered.entry h hc hway hslot he).1
  · have hj' := hj.trans hslot.count_lt
    rw [hread j hj', hid, (Entered.entries h hc hway hslot he hj' (Nat.ne_of_lt hj)).1]
    intro heq
    have hcarries := (hinOrder j hj').leads.resolve_left fun hunused => hinode (heq ▸ hunused.1)
    exact h.toSane.not_carries hinode hcap hdata (heq ▸ hcarries)

omit hway hslot in
/-- **The bits are what they were** when the new inode is released. -/
theorem Entered.bits_released :
    (releaseInode t (createdInode env s)).volume.inodeBit = s.volume.inodeBit ∧
      (releaseInode t (createdInode env s)).volume.dataBit = s.volume.dataBit := by
  have hr := Entered.released h hc he
  have hid := id_createdInode env s
  constructor
  · rw [hr.inodeBit, he.inodeBit, hid, Function.update_idem]
    exact Function.update_eq_self_iff.mpr hc.inodeHint.2.symm
  · funext x
    refine Bool.eq_iff_iff.mpr ?_
    have hnew : (createdInode env s).Holds x ↔ x = s.superblock.firstFreeDataBit :=
      holds_newInode (Packed.get32_lt _ _)
    rw [hr.dataBit, he.dataBit, hnew, Function.update_apply]
    by_cases hx : x = s.superblock.firstFreeDataBit
    · rw [hx, hc.dataHint.2.2]
      simp
    · simp [hx]

/-- **The volume that the deletion leaves**: the directory is not empty, so its block stays. -/
theorem Entered.deleted :
    (deleteEntry env' (releaseInode t (createdInode env s))
        (enlarged env (parentInodeFromPath env s path)) (createdInode env s).id).2.superblock =
      t.superblock ∧
    (deleteEntry env' (releaseInode t (createdInode env s))
        (enlarged env (parentInodeFromPath env s path)) (createdInode env s).id).2.volume =
      ((releaseInode t (createdInode env s)).volume.putBlock b (clearEntry (readBlock
        (releaseInode t (createdInode env s)).disk env'.afterTempBlock b) count)).putInode
          (parentInodeFromPath env s path).id
          (reduced (enlarged env (parentInodeFromPath env s path))) := by
  have hp := hc.parent_onDisk h hway
  have hr := Entered.released h hc he
  have hfind := @Entered.findEntry env env' s t path b count h hc hway hslot he
  have hsame := sameExtents_enlarged env (parentInodeFromPath env s path)
  have hlayout : (releaseInode t (createdInode env s)).superblock.layout = s.superblock.layout := by
    rw [hr.superblock, he.layout]
  have hplaced : (enlarged env (parentInodeFromPath env s path)).Placed
      (releaseInode t (createdInode env s)).superblock.layout := by
    intro b' hb'
    rw [hlayout]
    exact (h.onDisk_placed hp).2 b' ((hsame.holds b').mp hb')
  have hcap : (enlarged env (parentInodeFromPath env s path)).id <
      (releaseInode t (createdInode env s)).superblock.layout.capacity := by
    rw [hlayout, hsame.id]
    exact hp.carries.lt
  have hpart : (reduced (enlarged env (parentInodeFromPath env s path))).sizeBytes % fsBlockSize
      ≠ 0 := by
    have hpos := hslot.live_pos hp.1
    have hroom := hslot.room
    rw [(hslot.sizes_back env).1, hslot.size]
    unfold dirEntrySize fsBlockSize
    omega
  obtain ⟨-, value, hkept, hvol⟩ := volume_deleteEntry (hlayout ▸ h.sound)
    (hlayout ▸ h.dataBits_le) hcap hplaced hfind
  have hvalue := hkept.resolve_right fun hreleased => by
    obtain ⟨-, -, -, -, hfull, -⟩ := hreleased
    exact hpart hfull
  have hdeleted := @deleteEntry_deleted env' (releaseInode t (createdInode env s))
    (enlarged env (parentInodeFromPath env s path)) (createdInode env s).id (hlayout ▸ h.sound)
    (hlayout ▸ h.dataBits_le) hcap hplaced
  refine ⟨hdeleted.superblock.trans hr.superblock, ?_⟩
  rw [hvol, hvalue, hsame.id]
  unfold Volume.putDataBit Volume.putInode Volume.putBlock
  rw [Function.update_eq_self]

/-- The entries of the directory: the new one is unused again, and the others are what they were. -/
theorem Entered.deleted_entries {n : Nat} (hn : n < dirEntriesPerBlock) :
    SameLive (s.volume.content b) (((releaseInode t (createdInode env s)).volume.putBlock b
      (clearEntry (readBlock (releaseInode t (createdInode env s)).disk env'.afterTempBlock b)
        count)).content b) n := by
  obtain ⟨hnumber, hname⟩ := @entry_putBlock (clearEntry (readBlock
    (releaseInode t (createdInode env s)).disk env'.afterTempBlock b) count) n
    (releaseInode t (createdInode env s)).volume b hn
  unfold SameLive
  rw [hnumber, entryId_clearEntry]
  by_cases heq : n = count
  · rw [if_pos heq, heq, hslot.unused]
    exact ⟨rfl, fun hused => absurd rfl hused⟩
  · obtain ⟨hid₁, hname₁⟩ := @Entered.released_entries env env' s t path b count h hc hway hslot he
      n hn
    obtain ⟨hid₂, hname₂⟩ := Entered.entries h hc hway hslot he hn heq
    rw [if_neg heq, hid₁, hid₂]
    refine ⟨rfl, fun _ k hk => ?_⟩
    rw [hname k hk, entryName_clearEntry_ne heq hk, hname₁ k hk, hname₂ k hk]

include hway'

/-- **The deletion undoes the creation.** -/
theorem Entered.undone : Undone s (parentInodeFromPath env s path) (createdInode env s)
    (fsDeleteFile env' t path) := by
  obtain ⟨hinode, -, -⟩ := hc.numbers h
  have hp := hc.parent_onDisk h hway
  have hid := id_createdInode env s
  have hparent := Entered.parent h hc hway hway' hslot he
  have hfile := Entered.file h hc hway hway' hslot he
  have hr := Entered.released h hc he
  have hsame := sameExtents_enlarged env (parentInodeFromPath env s path)
  have hrefused : ¬ DeleteRefused env' t path := by
    unfold DeleteRefused
    rw [specialPath_visible hc.visible hc.nonempty, hfile, hparent, hsame.id, hid,
      refCount_createdInode]
    have htype : (createdInode env s).type = filetypeFile := type_newInode ..
    simp [hinode, hc.parent, htype]
  obtain ⟨hinodeBit, hdataBit⟩ := Entered.bits_released h hc he
  obtain ⟨hbytes, hsectors⟩ := hslot.sizes_back env
  obtain ⟨hsuper, hvol⟩ := @Entered.deleted env env' s t path b count h hc hway hslot he
  have hfind := @Entered.findEntry env env' s t path b count h hc hway hslot he
  have hsucceeds : (deleteEntry env' (releaseInode t (createdInode env s))
      (enlarged env (parentInodeFromPath env s path)) (createdInode env s).id).1 = true := by
    unfold deleteEntry
    rw [hfind]
  rw [fsDeleteFile_eq hrefused, hfile, hparent]
  generalize deleteEntry env' (releaseInode t (createdInode env s))
    (enlarged env (parentInodeFromPath env s path)) (createdInode env s).id = result at *
  have hbits : result.2.volume.inodeBit = s.volume.inodeBit ∧
      result.2.volume.dataBit = s.volume.dataBit := by
    rw [hvol]
    exact ⟨hinodeBit, hdataBit⟩
  have hparent' : result.2.volume.inode (parentInodeFromPath env s path).id =
      reduced (enlarged env (parentInodeFromPath env s path)) := by
    rw [hvol]
    exact Function.update_self _ _ _
  refine ⟨hsucceeds, hbits.1, hbits.2, fun b' hb' n hn => ?_, ?_, ?_, fun i hi hi' => ?_,
    fun b' hb' hb'' => ?_, ?_, ?_⟩
  · have hmem := (mem_indexedBlocks h.sound.extents (h.onDisk_placed hp).2 h.dataBits_le).mpr hb'
    rw [indexedBlocks_direct h.sound (h.onDisk_placed hp).2 h.dataBits_le, hslot.blocks] at hmem
    obtain rfl := List.mem_singleton.mp hmem
    rw [hvol]
    exact Entered.deleted_entries h hc hway hslot he hn
  · rw [hparent', hp.2]
    exact hbytes
  · rw [hparent', hp.2]
    exact hsectors
  · rw [hvol]
    show Function.update (releaseInode t (createdInode env s)).volume.inode _ _ i = _
    rw [Function.update_of_ne hi, hr.inode, Function.update_of_ne hi', he.inode,
      Function.update_of_ne hi, Function.update_of_ne (hid ▸ hi')]
  · have hne : b' ≠ b := fun heq => hb' (heq ▸ hslot.holds h.sound)
    rw [hvol]
    show Function.update (releaseInode t (createdInode env s)).volume.content b _ b' = _
    rw [Function.update_of_ne hne, hr.content b' hb'', he.content]
    exact Function.update_of_ne hne _ _
  · rw [hsuper, hbits.1]
    exact he.inodeHint
  · rw [hsuper, hbits.2]
    exact he.dataHint

end

/-- **Delete undoes create**, when the walks to the directory stay in the tree. -/
theorem delete_undoes_create (env env' : Env) (s : State) (path : CString) (h : WellFormed s)
    (hc : Creatable env s path) (hway : InTree env s path) (hway' : InTree env' s path) :
    Undone s (parentInodeFromPath env s path) (fsCreateFile env s path).1
      (fsDeleteFile env' (fsCreateFile env s path).2 path) := by
  obtain ⟨b, count, hslot⟩ := hc.slot h hway
  obtain ⟨hnew, he⟩ := hc.entered h hway hslot
  rw [hnew]
  exact Entered.undone h hc hway hway' hslot he

/-! ## 9. A way back through a file -/

/-- `ca/r/cab`. -/
def backPath : CString where
  chars := [99, 97, slash, 114, slash, 99, 97, 98]
  nonzero := by decide +kernel
  after := fun _ => 0

/-- An image whose only file, `ca`, has an entry `r` for the root directory in its block.  The entry
in front of the one of the file is unused. -/
def backLink : State :=
  let s := emptyFiles 1
  let file := ((((noInode.setId 2).setSizeBytes 64).setSizeSectors 1).setExtentFirst 0
    6).setExtentLength 0 1
  let disk := setBitInDiskBlock (storeInode s.disk s.superblock 2 file) 3 6
  let root := readBlock disk (fun _ => 0) 5
  let disk := writeBlock disk 5 (writeEntry (clearEntry root 2) 3 2 wholeName.chars)
  { s with
    disk := writeBlock disk 6 (writeEntry (fun _ => 0) 0 1 [114])
    superblock := s.superblock.setFirstFreeDataBit 7 }

/-- The inodes: their numbers, types and blocks, and the bits in use. -/
theorem backLink_inodes : (∀ i < 64, (backLink.volume.inode i).id = i → i < 3) ∧
    (∀ i < 3, ((backLink.volume.inode i).id = i ∧
      (backLink.volume.inode i).type = (if i = 1 then filetypeDir else filetypeFile)) ∧
        ∀ k < 4, (backLink.volume.inode i).extentLength k = (if k = 0 ∧ i ≠ 0 then 1 else 0) ∧
          (k = 0 → i ≠ 0 → (backLink.volume.inode i).extentFirst k = i + 4)) ∧
    backLink.superblock.firstFreeInodeBit = 3 ∧ backLink.superblock.firstFreeDataBit = 7 ∧
    (∀ i < 5, backLink.volume.inodeBit i = decide (i < 3)) ∧
    ∀ b < 9, backLink.volume.dataBit b = decide (b < 7) := by
  decide +kernel

theorem backLink_layout : backLink.superblock.layout = ⟨2, 1, 3, 1, 4, 1, 5, 4⟩ := by
  have hbuilt := @emptyFiles_layout 1 (by decide)
  have hlayout : backLink.superblock.layout = (emptyFiles 1).superblock.layout :=
    Superblock.layout_setFirstFreeDataBit _ _
  have hblocks : builtInodeBlocks 1 = 1 ∧ builtFirstBlock 1 = 5 := by decide
  rw [hlayout, hbuilt, hblocks.1, hblocks.2]

/-- The block of the root directory with its entries, its sizes and the copy of its inode. -/
theorem backLink_directory : (∀ n < dirEntriesPerBlock,
      (entryId (backLink.volume.content 5) n = 0 ∧ entryName (backLink.volume.content 5) n 0 = 0 ∨
        entryId (backLink.volume.content 5) n = 1 ∧
          entryName (backLink.volume.content 5) n 0 = dot ∨
        entryId (backLink.volume.content 5) n = 2) ∧
      entryName (backLink.volume.content 5) n 2 = 0) ∧
    directBlocks backLink.superblock (backLink.volume.inode 1) = [5] ∧
    indexedBlocks backLink.superblock (backLink.volume.inode 2) = [6] ∧
    (backLink.volume.inode 1).sizeBytes = dirEntrySize * liveEntries (backLink.volume.content 5) ∧
    (backLink.volume.inode 1).sizeSectors = bytesToSectors (backLink.volume.inode 1).sizeBytes ∧
    entryId (backLink.volume.content 5) 0 = 1 ∧ liveEntries (backLink.volume.content 5) < 63 ∧
    ∀ k : Fin 64, backLink.volume.inode 1 k = backLink.rootInode k := by
  decide +kernel

/-- The blocks of the root directory and of the file. -/
theorem backLink_holds {i b : Nat} (hi : i < 3) (hb : (backLink.volume.inode i).Holds b) :
    i ≠ 0 ∧ b = i + 4 := by
  obtain ⟨k, hk, hlo, hhi⟩ := hb
  obtain ⟨hlength, hfirst⟩ := (backLink_inodes.2.1 i hi).2 k hk
  rw [hlength] at hhi
  split at hhi
  · next hone =>
    rw [hfirst hone.1 hone.2] at hlo hhi
    exact ⟨hone.2, by omega⟩
  · omega

theorem backLink_carries {i : Nat} (hi : Carries backLink i) : i < 3 := by
  have hcap := hi.lt
  rw [backLink_layout] at hcap
  exact backLink_inodes.1 i hcap hi.2

theorem backLink_isDir {i : Nat} (hi : IsDir backLink i) : i = 1 := by
  have htype := (backLink_inodes.2.1 i (backLink_carries hi.1)).1.2
  by_contra hne
  rw [if_neg hne] at htype
  have hdir := hi.2
  rw [htype] at hdir
  cases hdir

theorem backLink_first : IsDir backLink 1 :=
  ⟨⟨by decide, (backLink_inodes.2.1 1 (by decide)).1.1⟩,
    (backLink_inodes.2.1 1 (by decide)).1.2⟩

theorem backLink_root : OnDisk backLink backLink.rootInode ∧ backLink.rootInode.type = filetypeDir ∧
    backLink.rootInode.id = 1 := by
  obtain ⟨-, -, -, -, -, -, -, hcopy⟩ := backLink_directory
  have hroot : backLink.volume.inode 1 = backLink.rootInode := funext hcopy
  obtain ⟨⟨hid, htype⟩, -⟩ := backLink_inodes.2.1 1 (by decide)
  rw [hroot] at hid htype
  exact ⟨⟨by rw [hid]; decide, by rw [hid]; exact hroot⟩, htype, hid⟩

theorem backLink_sane : Sane backLink := by
  obtain ⟨-, hinodes, hinode, hdata, hinodeBits, hdataBits⟩ := backLink_inodes
  obtain ⟨hroot, htype, -⟩ := backLink_root
  have hlayout := backLink_layout
  have hentries : ∀ n < dirEntriesPerBlock, entryId (backLink.volume.content 5) n < 3 := by
    intro n hn
    rcases (backLink_directory.1 n hn).1 with h | h | h <;> omega
  have htail := backLink_directory.2.2.1
  refine ⟨?_, ?_, ?_, ?_, fun i hi => ?_, fun b hb => ?_, Or.inr ?_, Or.inr ⟨?_, ?_⟩, fun i hi b hb => ?_,
    fun i hi b hb n hn => ?_, fun i j hi hfile hj b hb => ?_, backLink_first, ⟨hroot, htype⟩,
    ⟨hroot, htype⟩⟩
  · rw [hlayout]
    exact ⟨by decide, by decide, by decide, by decide, by decide, rfl⟩
  · rw [hlayout]
  · rw [hlayout]
  · rw [hlayout]
    decide
  · have hlt := backLink_carries hi
    rw [hinodeBits i (by omega), decide_eq_true hlt]
  · rw [hlayout] at hb
    have hlt : b < 5 := hb
    rw [hdataBits b (by omega), decide_eq_true (by omega)]
  · rw [hinode, hinodeBits 3 (by decide)]
    rfl
  · rw [hdata, hlayout]
    decide
  · rw [hdata, hdataBits 7 (by decide)]
    rfl
  · obtain ⟨hne, rfl⟩ := backLink_holds (backLink_carries hi) hb
    have hlt := backLink_carries hi
    rw [hlayout]
    show 5 ≤ i + 4 ∧ i + 4 < 1 * 32768
    omega
  · obtain rfl := backLink_isDir hi
    obtain ⟨-, rfl⟩ := backLink_holds (by decide) hb
    have hlt := hentries n hn
    refine (Nat.eq_zero_or_pos _).imp_right fun hpos => ⟨?_, Or.inl ⟨by omega, ?_⟩⟩
    · rw [hlayout]
      exact Nat.lt_trans hlt (by decide)
    · exact (hinodes _ hlt).1.1
  · have hlt := backLink_carries hi
    have htwo : i = 2 := by
      have hne : i ≠ 1 := fun heq => by
        rw [heq, backLink_first.2] at hfile
        cases hfile
      have hpos := hi.1
      omega
    rw [htwo, htail] at hb
    exact absurd hb List.not_mem_nil

/-- It is well formed all the same: what a file holds is not read as entries. -/
theorem backLink_wellFormed : WellFormed backLink := by
  obtain ⟨-, hinodes, -, -, hinodeBits, hdataBits⟩ := backLink_inodes
  obtain ⟨hentries, hdirect, -, hbytes, hsectors, hown, -⟩ := backLink_directory
  have hcarried : ∀ e < 3, e ≠ 0 → Carries backLink e := fun e he hne =>
    ⟨hne, (hinodes e he).1.1⟩
  refine ⟨backLink_sane, ?_, backLink_root.2.2, fun i hi b hb => ?_, fun i j hi hj hne b hb hb' => ?_,
    fun i hi b hb n hn => ⟨?_, 2, by decide, ?_⟩, fun i hi b bs hbs => ?_, fun i hi => ?_,
    fun i hi => ?_, fun _ => 0, fun i hi b hb n hn hdir hdot => ?_⟩
  · rw [hinodeBits 0 (by decide)]
    rfl
  · have hlt := backLink_carries hi
    obtain ⟨-, rfl⟩ := backLink_holds hlt hb
    rw [hdataBits _ (by omega), decide_eq_true (by omega)]
  · have hone := (backLink_holds (backLink_carries hi) hb).2
    have htwo := (backLink_holds (backLink_carries hj) hb').2
    omega
  · obtain rfl := backLink_isDir hi
    obtain ⟨-, rfl⟩ := backLink_holds (by decide) hb
    refine (hentries n hn).1.imp_right fun hused => ?_
    show Carries backLink (entryId (backLink.volume.content 5) n)
    rcases hused with ⟨hone, -⟩ | htwo
    · rw [hone]
      exact hcarried 1 (by decide) (by decide)
    · rw [htwo]
      exact hcarried 2 (by decide) (by decide)
  · obtain rfl := backLink_isDir hi
    obtain ⟨-, rfl⟩ := backLink_holds (by decide) hb
    exact (hentries n hn).2
  · obtain rfl := backLink_isDir hi
    obtain ⟨rfl, -⟩ := List.cons.inj (hdirect.symm.trans hbs)
    exact hown
  · obtain rfl := backLink_isDir hi
    rw [hdirect, List.map_singleton, List.sum_singleton]
    exact hbytes
  · obtain rfl := backLink_isDir hi
    exact hsectors
  · obtain rfl := backLink_isDir hi
    obtain ⟨-, rfl⟩ := backLink_holds (by decide) hb
    have hid : entryId (backLink.volume.content 5) n = 1 := backLink_isDir hdir
    rcases (hentries n hn).1 with hnone | ⟨-, hname⟩ | htwo
    · exact absurd hdir.1.1 (not_not_intro hnone.1)
    · exact absurd hname hdot
    · omega

theorem backLink_creatable {env : Env} {path : CString}
    (hvisible : ∀ c ∈ components path.chars, c.head? ≠ some dot)
    (hnonempty : lastNameInPath path ≠ []) (hfits : (lastNameInPath path).length ≤ 59)
    (hunresolved : (inodeFromPath env backLink path).id = 0)
    (hparent : parentInodeFromPath env backLink path = backLink.rootInode) :
    Creatable env backLink path := by
  obtain ⟨-, -, hinode, hdata, hinodeBits, hdataBits⟩ := backLink_inodes
  obtain ⟨-, htype, hid⟩ := backLink_root
  obtain ⟨-, hdirect, -, -, -, -, hroom, hcopy⟩ := backLink_directory
  rw [funext hcopy] at hdirect
  have hlayout := backLink_layout
  refine ⟨⟨?_, ?_⟩, ⟨?_, ?_, ?_⟩, ⟨4, ?_, ?_, ?_⟩, ⟨8, ?_, ?_, ?_⟩, hvisible, hnonempty, hfits,
    hunresolved, ?_, ?_, 5, ?_, hroom⟩
  · rw [hinode, hlayout]
    decide
  · rw [hinode, hinodeBits 3 (by decide)]
    rfl
  · rw [hdata, hlayout]
    decide
  · rw [hdata, hlayout]
    decide
  · rw [hdata, hdataBits 7 (by decide)]
    rfl
  · rw [hlayout]
    decide
  · rw [hinode]
    decide
  · rw [hinodeBits 4 (by decide)]
    rfl
  · rw [hlayout]
    decide
  · rw [hdata]
    decide
  · rw [hdataBits 8 (by decide)]
    rfl
  · rw [hparent, hid]
    decide
  · rw [hparent]
    exact htype
  · rw [hparent]
    exact hdirect

/-- A file in the root directory. -/
theorem delete_undoes_create_first :
    Undone backLink (parentInodeFromPath quietEnv backLink newPath)
      (fsCreateFile quietEnv backLink newPath).1
      (fsDeleteFile quietEnv (fsCreateFile quietEnv backLink newPath).2 newPath) := by
  have hparent : parentInodeFromPath quietEnv backLink newPath = backLink.rootInode :=
    funext (by decide +kernel : ∀ k : Fin 64,
      parentInodeFromPath quietEnv backLink newPath k = backLink.rootInode k)
  have hcut : walked newPath.cut = [[]] := by decide +kernel
  have hway : InTree quietEnv backLink newPath := by
    unfold InTree
    rw [hcut]
    exact ⟨Or.inl rfl, trivial⟩
  refine delete_undoes_create quietEnv quietEnv backLink newPath backLink_wellFormed
    (backLink_creatable ?_ ?_ ?_ ?_ hparent) hway hway <;> decide +kernel

/-- **A walk that comes back through a file** misses it once the new name is there: the file that was
created is not deleted. -/
theorem delete_undoes_nothing : ¬ ∀ (env env' : Env) (s : State) (path : CString), WellFormed s →
    Creatable env s path → Undone s (parentInodeFromPath env s path) (fsCreateFile env s path).1
      (fsDeleteFile env' (fsCreateFile env s path).2 path) := by
  intro hall
  have hparent : parentInodeFromPath quietEnv backLink backPath = backLink.rootInode :=
    funext (by decide +kernel : ∀ k : Fin 64,
      parentInodeFromPath quietEnv backLink backPath k = backLink.rootInode k)
  have hundone := hall quietEnv quietEnv backLink backPath backLink_wellFormed
    (backLink_creatable (by decide +kernel) (by decide +kernel) (by decide +kernel)
      (by decide +kernel) hparent)
  have hfails : (fsDeleteFile quietEnv (fsCreateFile quietEnv backLink backPath).2 backPath).1 =
      false := by decide +kernel
  rw [hundone.succeeds] at hfails
  cases hfails

end AmateurOs.Fs
