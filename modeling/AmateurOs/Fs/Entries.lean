/-
# The entries of a directory

The entries in use, with their numbers and their names, are a multiset (`dirEntries`): that of the
directory's blocks, one after the other.  `fs_create_file` looks for the first unused entry of all
blocks of the directory (`findSlot`).  It counts the entries in use on the way and stops early at
the number that the new size stands for; on a well-formed disk it never does, because this number
counts the new entry (`findSlot_spec`).

Where it finds one, the multiset grows by the new entry (`dirEntries_added`).  Where all blocks are
full, nothing is written.
-/
import Mathlib.Algebra.Order.Group.Multiset
import Mathlib.Algebra.BigOperators.Group.List.Basic
import AmateurOs.Fs.Undo

namespace AmateurOs.Fs

open AmateurOs.Lib

/-! ## 1. Sums along a list -/

/-- One summand grows. -/
theorem sum_map_grown {α M : Type} [AddCommMonoid M] {f g : α → M} {a : α} {m : M} :
    ∀ {l : List α}, l.Nodup → a ∈ l → (∀ b ∈ l, b ≠ a → g b = f b) → g a = m + f a →
      (l.map g).sum = m + (l.map f).sum := by
  intro l
  induction l with
  | nil => exact fun _ ha => absurd ha List.not_mem_nil
  | cons b l ih =>
    intro hnodup ha hsame hgrown
    obtain ⟨hnew, hrest⟩ := List.nodup_cons.mp hnodup
    rw [List.map_cons, List.map_cons, List.sum_cons, List.sum_cons]
    rcases List.mem_cons.mp ha with rfl | hin
    · have htail : l.map g = l.map f := List.map_congr_left fun c hc =>
        hsame c (List.mem_cons_of_mem _ hc) fun heq => hnew (heq ▸ hc)
      rw [htail, hgrown, add_assoc]
    · have hne : b ≠ a := fun heq => hnew (heq ▸ hin)
      rw [hsame b List.mem_cons_self hne,
        ih hrest hin (fun c hc => hsame c (List.mem_cons_of_mem _ hc)) hgrown]
      exact add_left_comm _ _ _

/-! ## 2. Entries -/

/-- The name of an entry, up to its terminator. -/
def entryText (tempBlock : Bytes) (count : Nat) : List UInt8 :=
  ((List.range 60).map (entryName tempBlock count)).takeWhile (· ≠ 0)

/-- The entry, if it is in use. -/
def slotEntry (tempBlock : Bytes) (count : Nat) : Multiset (Nat × List UInt8) :=
  if entryId tempBlock count = 0 then 0
  else {(entryId tempBlock count, entryText tempBlock count)}

/-- The entries of a block that are in use. -/
def blockEntries (tempBlock : Bytes) : Multiset (Nat × List UInt8) :=
  ((List.range dirEntriesPerBlock).map (slotEntry tempBlock)).sum

/-- **The entries of a directory**, over its direct extents. -/
def dirEntries (s : State) (d : Inode) : Multiset (Nat × List UInt8) :=
  ((directBlocks s.superblock d).map fun b => blockEntries (s.volume.content b)).sum

/-- The name as it was written. -/
theorem entryText_eq {tempBlock : Bytes} {count : Nat} {name : List UInt8}
    (hname : ∀ k ≤ name.length, entryName tempBlock count k = cstr name (fun _ => 0) k)
    (hnonzero : ∀ c ∈ name, c ≠ 0) (hlen : name.length < 60) :
    entryText tempBlock count = name := by
  obtain ⟨rest, hrest⟩ := Nat.exists_eq_add_of_lt hlen
  have hfront : (List.range name.length).map (entryName tempBlock count) = name := by
    refine List.ext_getElem (by simp) fun k hk hk' => ?_
    rw [List.getElem_map, List.getElem_range, hname k (Nat.le_of_lt hk'), cstr_lt hk']
  have hend : entryName tempBlock count name.length = 0 :=
    (hname _ (Nat.le_refl _)).trans cstr_length
  unfold entryText
  rw [hrest, Nat.add_assoc, List.range_add, List.range_succ_eq_map, List.map_append, hfront,
    List.takeWhile_append_of_pos fun c hc => decide_eq_true (hnonzero c hc), List.map_cons,
    List.map_cons, Nat.add_zero, hend, List.takeWhile_cons_of_neg (by decide), List.append_nil]

/-- The name of an entry is read from its 60 bytes. -/
theorem slotEntry_congr {tempBlock tempBlock' : Bytes} {count : Nat}
    (hid : entryId tempBlock' count = entryId tempBlock count)
    (hname : ∀ k < 60, entryName tempBlock' count k = entryName tempBlock count k) :
    slotEntry tempBlock' count = slotEntry tempBlock count := by
  have htext : entryText tempBlock' count = entryText tempBlock count := by
    unfold entryText
    rw [List.map_congr_left fun k hk => hname k (List.mem_range.mp hk)]
  unfold slotEntry
  rw [hid, htext]

theorem mem_slotEntry {tempBlock : Bytes} {count : Nat} {e : Nat × List UInt8} :
    e ∈ slotEntry tempBlock count ↔
      entryId tempBlock count ≠ 0 ∧ e = (entryId tempBlock count, entryText tempBlock count) := by
  unfold slotEntry
  split
  · next hzero => simp [hzero]
  · next hne => simp [hne]

theorem mem_sum_map {α β : Type} {f : α → Multiset β} {b : β} : ∀ {l : List α},
    b ∈ (l.map f).sum ↔ ∃ a ∈ l, b ∈ f a := by
  intro l
  induction l with
  | nil => simp
  | cons a l ih => simp [ih]

theorem mem_dirEntries {s : State} {d : Inode} {e : Nat × List UInt8} : e ∈ dirEntries s d ↔
    ∃ b ∈ directBlocks s.superblock d, ∃ n < dirEntriesPerBlock,
      entryId (s.volume.content b) n ≠ 0 ∧
        e = (entryId (s.volume.content b) n, entryText (s.volume.content b) n) := by
  unfold dirEntries blockEntries
  rw [mem_sum_map]
  refine exists_congr fun b => and_congr_right fun _ => ?_
  rw [mem_sum_map]
  exact exists_congr fun n => and_congr List.mem_range mem_slotEntry

theorem card_blockEntries (tempBlock : Bytes) :
    (blockEntries tempBlock).card = liveEntries tempBlock := by
  unfold blockEntries liveEntries
  generalize List.range dirEntriesPerBlock = l
  induction l with
  | nil => rfl
  | cons n l ih =>
    rw [List.map_cons, List.sum_cons, Multiset.card_add, ih, List.countP_cons]
    unfold slotEntry
    by_cases hzero : entryId tempBlock n = 0
    · simp [hzero]
    · simp [hzero, Nat.add_comm]

/-- **Their number** is the one that the sizes of well-formed directories go by. -/
theorem card_dirEntries (s : State) (d : Inode) : (dirEntries s d).card =
    ((directBlocks s.superblock d).map fun b => liveEntries (s.volume.content b)).sum := by
  unfold dirEntries
  induction directBlocks s.superblock d with
  | nil => rfl
  | cons b bs ih =>
    rw [List.map_cons, List.map_cons, List.sum_cons, List.sum_cons, Multiset.card_add, ih,
      card_blockEntries]

/-- Directories with the same blocks and the same content have the same entries. -/
theorem dirEntries_congr {s t : State} {d d' : Inode}
    (hblocks : directBlocks t.superblock d' = directBlocks s.superblock d)
    (hcontent : ∀ b ∈ directBlocks s.superblock d, t.volume.content b = s.volume.content b) :
    dirEntries t d' = dirEntries s d := by
  unfold dirEntries
  rw [hblocks, List.map_congr_left fun b hb => congrArg blockEntries (hcontent b hb)]

/-! ## 3. An entry written -/

/-- The new entry, in a block that is the old one in all others. -/
theorem blockEntries_added {tempBlock tempBlock' : Bytes} {count id : Nat} {name : List UInt8}
    (hcount : count < dirEntriesPerBlock)
    (hunused : entryId tempBlock count = 0) (hid : id ≠ 0) (hword : id < 4294967296)
    (hnonzero : ∀ c ∈ name, c ≠ 0) (hlen : name.length < 60)
    (hwritten : ∀ n < dirEntriesPerBlock,
      entryId tempBlock' n = entryId (writeEntry tempBlock count id name) n ∧
        ∀ k < 60, entryName tempBlock' n k = entryName (writeEntry tempBlock count id name) n k) :
    blockEntries tempBlock' = (id, name) ::ₘ blockEntries tempBlock := by
  have hother : ∀ n ∈ List.range dirEntriesPerBlock, n ≠ count →
      slotEntry tempBlock' n = slotEntry tempBlock n := by
    intro n hn hne
    obtain ⟨hnumber, hname⟩ := hwritten n (List.mem_range.mp hn)
    refine slotEntry_congr (hnumber.trans (entryId_writeEntry_ne hlen hne)) fun k hk => ?_
    exact (hname k hk).trans (entryName_writeEntry_ne hlen hne hk)
  have hnew : slotEntry tempBlock' count = {(id, name)} + slotEntry tempBlock count := by
    obtain ⟨hnumber, hname⟩ := hwritten count hcount
    have htext : entryText tempBlock' count = name := entryText_eq (fun k hk =>
      (hname k (Nat.lt_of_le_of_lt hk hlen)).trans (entryName_writeEntry hk)) hnonzero hlen
    unfold slotEntry
    rw [hnumber, entryId_writeEntry hword, if_neg hid, htext, if_pos hunused, add_zero]
  unfold blockEntries
  rw [sum_map_grown List.nodup_range (List.mem_range.mpr hcount) hother hnew,
    Multiset.singleton_add]

/-- **An entry added to a directory**: one block has it, the others are as they were. -/
theorem dirEntries_added {s t : State} {d d' : Inode} {j id : Nat} {name : List UInt8}
    (hblocks : directBlocks t.superblock d' = directBlocks s.superblock d)
    (hnodup : (directBlocks s.superblock d).Nodup) (hj : j ∈ directBlocks s.superblock d)
    (hother : ∀ b ∈ directBlocks s.superblock d, b ≠ j →
      t.volume.content b = s.volume.content b)
    (hnew : blockEntries (t.volume.content j) =
      (id, name) ::ₘ blockEntries (s.volume.content j)) :
    dirEntries t d' = (id, name) ::ₘ dirEntries s d := by
  unfold dirEntries
  rw [hblocks, sum_map_grown hnodup hj
    (fun b hb hne => congrArg blockEntries (hother b hb hne))
    (hnew.trans (Multiset.singleton_add _ _).symm), Multiset.singleton_add]

/-! ## 4. The search for an unused entry -/

/-- A block without an unused entry. -/
theorem scanSlots_full {tempBlock : Bytes} {total : Nat} : ∀ fuel count n,
    (∀ j < count + fuel, entryId tempBlock j ≠ 0) → n + fuel ≤ total →
      scanSlots tempBlock total fuel count n = (none, n + fuel) := by
  intro fuel
  induction fuel with
  | zero => exact fun _ _ _ _ => rfl
  | succ fuel ih =>
    intro count n hused htotal
    unfold scanSlots
    rw [if_pos (by omega), if_pos (hused count (by omega)),
      ih (count + 1) (n + 1) (fun j hj => hused j (by omega)) (by omega), Nat.add_assoc,
      Nat.add_comm 1]

theorem liveEntries_le (tempBlock : Bytes) : liveEntries tempBlock ≤ dirEntriesPerBlock := by
  unfold liveEntries
  exact List.countP_le_length.trans_eq List.length_range

theorem liveEntries_full {tempBlock : Bytes} (h : dirEntriesPerBlock ≤ liveEntries tempBlock) :
    ∀ n < dirEntriesPerBlock, entryId tempBlock n ≠ 0 := by
  have hall := List.countP_eq_length.mp
    ((Nat.le_antisymm (liveEntries_le tempBlock) h).trans List.length_range.symm)
  exact fun n hn => of_decide_eq_true (hall n (List.mem_range.mpr hn))

/-- Blocks have 64 entries each, and as many in use where all are full. -/
theorem liveEntries_sum (content : Nat → Bytes) (blocks : List Nat) :
    (blocks.map fun b => liveEntries (content b)).sum ≤ dirEntriesPerBlock * blocks.length ∧
      ((blocks.map fun b => liveEntries (content b)).sum = dirEntriesPerBlock * blocks.length ↔
        ∀ b ∈ blocks, dirEntriesPerBlock ≤ liveEntries (content b)) := by
  induction blocks with
  | nil => simp
  | cons b blocks ih =>
    have hle := liveEntries_le (content b)
    rw [List.map_cons, List.sum_cons, List.length_cons, List.forall_mem_cons, ← ih.2,
      Nat.mul_add, Nat.mul_one]
    omega

section

variable {disk : Bytes} {total : Nat}

/-- **An unused entry is found** when a block has one and the count of the entries allows it. -/
theorem findSlot_some : ∀ {blocks : List Nat} {n : Nat},
    n + (blocks.map fun b => liveEntries (readBlock disk (fun _ => 0) b)).sum < total →
    (∃ b ∈ blocks, liveEntries (readBlock disk (fun _ => 0) b) < dirEntriesPerBlock) →
    ∃ j ∈ blocks, ∃ count < dirEntriesPerBlock, findSlot disk total blocks n = some (j, count) ∧
      entryId (readBlock disk (fun _ => 0) j) count = 0 := by
  intro blocks
  induction blocks with
  | nil => exact fun _ ⟨_, hmem, _⟩ => absurd hmem List.not_mem_nil
  | cons b blocks ih =>
    intro n htotal hroom
    rw [List.map_cons, List.sum_cons] at htotal
    by_cases hfull : dirEntriesPerBlock ≤ liveEntries (readBlock disk (fun _ => 0) b)
    · -- every entry of the block is counted, and the search goes on in the next
      have hlive := Nat.le_antisymm (liveEntries_le _) hfull
      have hscan := scanSlots_full dirEntriesPerBlock 0 n
        (fun j hj => liveEntries_full hfull j (by omega))
        (by omega : n + dirEntriesPerBlock ≤ total)
      obtain ⟨j, hj, count, hcount, hfind, hunused⟩ := @ih (n + dirEntriesPerBlock) (by omega) (by
        obtain ⟨b', hb', hlt⟩ := hroom
        rcases List.mem_cons.mp hb' with rfl | hin
        · omega
        · exact ⟨b', hin, hlt⟩)
      refine ⟨j, List.mem_cons_of_mem _ hj, count, hcount, ?_, hunused⟩
      unfold findSlot
      rw [hscan]
      exact hfind
    · obtain ⟨count, hle, hunused, hused⟩ := exists_slot (Nat.lt_of_not_le hfull)
      have hscan := scanSlots_first hunused hused dirEntriesPerBlock 0 n (Nat.zero_le _)
        (by omega) (by omega : n + (count - 0) < total)
      refine ⟨b, List.mem_cons_self, count, by omega, ?_, hunused⟩
      unfold findSlot
      rw [hscan]

/-- None is found when all blocks are full. -/
theorem findSlot_none : ∀ {blocks : List Nat} {n : Nat},
    n + (blocks.map fun b => liveEntries (readBlock disk (fun _ => 0) b)).sum < total →
    (∀ b ∈ blocks, dirEntriesPerBlock ≤ liveEntries (readBlock disk (fun _ => 0) b)) →
      findSlot disk total blocks n = none := by
  intro blocks
  induction blocks with
  | nil => exact fun _ _ => rfl
  | cons b blocks ih =>
    intro n htotal hfull
    rw [List.map_cons, List.sum_cons] at htotal
    have hfirst := hfull b List.mem_cons_self
    have hscan := scanSlots_full dirEntriesPerBlock 0 n
      (fun j hj => liveEntries_full hfirst j (by omega)) (by omega : n + dirEntriesPerBlock ≤ total)
    unfold findSlot
    rw [hscan]
    exact ih (by omega) fun b' hb' => hfull b' (List.mem_cons_of_mem _ hb')

end

/-- The entries in use are those that are read. -/
theorem liveEntries_content {l : Layout} {disk after : Bytes} {block : Nat} (hs : l.Shown block)
    (hb : block < diskBlocks) :
    liveEntries (readBlock disk after block) = liveEntries ((volume l disk).content block) := by
  unfold liveEntries
  refine List.countP_congr fun n hn => ?_
  rw [@entryId_content l disk after block n hs hb (List.mem_range.mp hn)]

/-- The entry that is found is unused. -/
theorem scanSlots_unused {tempBlock : Bytes} {total : Nat} : ∀ {fuel count n c n' : Nat},
    scanSlots tempBlock total fuel count n = (some c, n') → entryId tempBlock c = 0 := by
  intro fuel
  induction fuel with
  | zero =>
    intro count n c n' h
    cases h
  | succ fuel ih =>
    intro count n c n' h
    unfold scanSlots at h
    split at h
    · split at h
      · exact ih h
      next hunused =>
        obtain ⟨hc, -⟩ := Prod.mk.inj h
        exact Option.some.inj hc ▸ not_not.mp hunused
    · cases h

theorem findSlot_unused {disk : Bytes} {total j count : Nat} : ∀ {blocks : List Nat} {n : Nat},
    findSlot disk total blocks n = some (j, count) →
      entryId (readBlock disk (fun _ => 0) j) count = 0 := by
  intro blocks
  induction blocks with
  | nil =>
    intro n h
    cases h
  | cons b blocks ih =>
    intro n h
    unfold findSlot at h
    cases hscan : scanSlots (readBlock disk (fun _ => 0) b) total dirEntriesPerBlock 0 n with
    | mk slot n' =>
      rw [hscan] at h
      cases slot with
      | some c =>
        obtain ⟨rfl, rfl⟩ := Prod.mk.inj (Option.some.inj h)
        exact scanSlots_unused hscan
      | none => exact ih h

/-! ## 5. The entry of a new file -/

/-- The unused entry that `fs_create_file` finds once the directory is stored. -/
def newSlot (s : State) (p : Inode) : Option (Nat × Nat) :=
  findSlot (updateInodeOnDisk s p).disk (p.sizeBytes / dirEntrySize) (directBlocks s.superblock p) 0

/-- A directory with a number of the inode blocks, whose blocks are shown. -/
structure ShownDir (s : State) (p : Inode) : Prop where
  sound : s.superblock.layout.Sound
  cap : p.id < s.superblock.layout.capacity
  blocks : ∀ b ∈ directBlocks s.superblock p, s.superblock.layout.Shown b ∧ b < diskBlocks

section

variable {s : State} {p : Inode} (h : ShownDir s p) {id : Nat} {name : List UInt8}

include h

theorem ShownDir.stored : volume s.superblock.layout (updateInodeOnDisk s p).disk =
    s.volume.putInode p.id p := volume_storeInode h.sound h.cap

/-- The superblock and the copies of the directories are no part of the volume. -/
theorem ShownDir.volume_after {disk : Bytes} : (updateSuperblock (refreshCaches
    { updateInodeOnDisk s p with disk := disk } p)).volume = volume s.superblock.layout disk :=
  volume_updateSuperblock _ h.sound

/-- **An unused entry that is found** is written. -/
theorem ShownDir.entered {j count : Nat} (hslot : newSlot s p = some (j, count)) :
    j ∈ directBlocks s.superblock p ∧ count < dirEntriesPerBlock ∧
      entryId (s.volume.content j) count = 0 ∧
      (enterFile s p id name).volume = (s.volume.putInode p.id p).putBlock j
        (writeEntry (s.volume.content j) count id name) := by
  obtain ⟨hj, hcount⟩ := findSlot_mem hslot
  have hunused := findSlot_unused hslot
  obtain ⟨hshown, hsmall⟩ := h.blocks j hj
  rw [@entryId_content s.superblock.layout _ _ j count hshown hsmall hcount, h.stored] at hunused
  have hread : ∀ q < 4096, readBlock (updateInodeOnDisk s p).disk (fun _ => 0) j q =
      s.volume.content j q := by
    intro q hq
    rw [volume_readBlock hshown hsmall hq, h.stored]
    rfl
  have hadd : addEntry (updateInodeOnDisk s p) p id name = { updateInodeOnDisk s p with
      disk := writeBlock (updateInodeOnDisk s p).disk j (writeEntry
        (readBlock (updateInodeOnDisk s p).disk (fun _ => 0) j) count id name) } := by
    have hfind : findSlot (updateInodeOnDisk s p).disk (p.sizeBytes / dirEntrySize)
        (directBlocks (updateInodeOnDisk s p).superblock p) 0 = some (j, count) := hslot
    unfold addEntry
    rw [hfind]
  refine ⟨hj, hcount, hunused, ?_⟩
  unfold enterFile
  rw [hadd, h.volume_after, volume_writeBlock h.sound hshown hsmall, h.stored,
    putBlock_congr fun q hq => writeEntry_congr (hread q hq)]

/-- **Where none is found**, nothing is written. -/
theorem ShownDir.notEntered (hslot : newSlot s p = none) :
    (enterFile s p id name).volume = s.volume.putInode p.id p := by
  have hadd : addEntry (updateInodeOnDisk s p) p id name =
      { updateInodeOnDisk s p with disk := (updateInodeOnDisk s p).disk } := by
    have hfind : findSlot (updateInodeOnDisk s p).disk (p.sizeBytes / dirEntrySize)
        (directBlocks (updateInodeOnDisk s p).superblock p) 0 = none := hslot
    unfold addEntry
    rw [hfind]
  unfold enterFile
  rw [hadd, h.volume_after, h.stored]

/-- The entries in use of a block, as the search reads it. -/
theorem ShownDir.live {b : Nat} (hb : b ∈ directBlocks s.superblock p) :
    liveEntries (readBlock (updateInodeOnDisk s p).disk (fun _ => 0) b) =
      liveEntries (s.volume.content b) := by
  obtain ⟨hshown, hlt⟩ := h.blocks b hb
  rw [@liveEntries_content s.superblock.layout _ _ b hshown hlt, h.stored]
  rfl

/-- **One is found** exactly where the blocks have one, when the size counts one more than are in
use. -/
theorem ShownDir.newSlot_none (htotal : (dirEntries s p).card < p.sizeBytes / dirEntrySize) :
    newSlot s p = none ↔
      (dirEntries s p).card = dirEntriesPerBlock * (directBlocks s.superblock p).length := by
  have hlive : (directBlocks s.superblock p).map (fun b =>
      liveEntries (readBlock (updateInodeOnDisk s p).disk (fun _ => 0) b)) =
        (directBlocks s.superblock p).map fun b => liveEntries (s.volume.content b) :=
    List.map_congr_left fun b hb => h.live hb
  rw [card_dirEntries] at htotal ⊢
  have hsum : 0 + ((directBlocks s.superblock p).map fun b =>
      liveEntries (readBlock (updateInodeOnDisk s p).disk (fun _ => 0) b)).sum <
        p.sizeBytes / dirEntrySize := by
    rw [hlive, Nat.zero_add]
    exact htotal
  rw [(liveEntries_sum s.volume.content (directBlocks s.superblock p)).2]
  constructor
  · intro hnone b hb
    by_contra hroom
    obtain ⟨j, -, count, -, hfind, -⟩ := findSlot_some hsum
      ⟨b, hb, by rw [h.live hb]; exact Nat.lt_of_not_le hroom⟩
    exact absurd (hfind.symm.trans hnone) (Option.some_ne_none _)
  · exact fun hfull => findSlot_none hsum fun b hb => by
      rw [h.live hb]
      exact hfull b hb

end

end AmateurOs.Fs
