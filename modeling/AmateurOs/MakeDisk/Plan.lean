/-
# The plan of an image

`plan` lists the inodes that a tree gets, from the inode number, the first block and the next
number that its root is written with.  It says what the two passes agree on: `get_file_info` sums
what the plan uses (`entriesInfo_eq`), `write_file_data` follows it (`writeNode_wrote`), every
inode is in its slot and every block in its extent.

A plan hands out consecutive blocks (`Tiles`) and consecutive numbers, but for the one of
`3rdstage.bin` (`plan_ids`).
-/
import Mathlib.Data.List.Pairwise
import AmateurOs.MakeDisk.Build

namespace AmateurOs.MakeDisk

open AmateurOs.Lib AmateurOs.Fs
open AmateurOs.Terminal (text)

/-! ## 1. Sums over a tree -/

mutual

/-- The blocks of a file, or of a directory with everything in it. -/
def Node.blocks : Node → Nat
  | .file data => bytesToBlocks data.length
  | .dir entries => bytesToBlocks ((entries.length + 2) * dirEntrySize) + entries.blocks

def Entries.blocks : Entries → Nat
  | .nil => 0
  | .cons _ node rest => node.blocks + rest.blocks

end

mutual

/-- The entries in a directory and below. -/
def Node.count : Node → Nat
  | .file _ => 0
  | .dir entries => entries.count

def Entries.count : Entries → Nat
  | .nil => 0
  | .cons _ node rest => node.count + rest.count + 1

end

mutual

/-- The entries that get the next number. -/
def Node.fresh : Node → Nat
  | .file _ => 0
  | .dir entries => entries.fresh

def Entries.fresh : Entries → Nat
  | .nil => 0
  | .cons name node rest => (if name = thirdStage then 0 else 1) + node.fresh + rest.fresh

end

mutual

/-- The entries named `3rdstage.bin`. -/
def Node.thirds : Node → Nat
  | .file _ => 0
  | .dir entries => entries.thirds

def Entries.thirds : Entries → Nat
  | .nil => 0
  | .cons name node rest => (if name = thirdStage then 1 else 0) + node.thirds + rest.thirds

end

/-- **A tree that fits on the disk.** -/
def Fits (root : Entries) : Prop :=
  builtEndBlock root.count (Node.dir root).blocks ≤ imageBlocks

/-! ## 2. The plan -/

mutual

/-- The inodes of a file or directory and of everything in it, in the order they are written. -/
def Node.plan : Node → (path : List (List UInt8)) → (id first next : Nat) → List Made
  | .file data, path, id, first, _ =>
    [⟨path, id, filetypeFile, data.length, first, bytesToBlocks data.length⟩]
  | .dir entries, path, id, first, next =>
    let size := (entries.length + 2) * dirEntrySize
    ⟨path, id, filetypeDir, size, first, bytesToBlocks size⟩ ::
      entries.plan path (first + bytesToBlocks size) next

def Entries.plan : Entries → (path : List (List UInt8)) → (first next : Nat) → List Made
  | .nil, _, _, _ => []
  | .cons name node rest, path, first, next =>
    let after := if name = thirdStage then next else next + 1
    node.plan (path ++ [name]) (childId name next) first after ++
      rest.plan path (first + node.blocks) (after + node.fresh)

end

/-- Extents that follow each other from one block to another. -/
inductive Tiles : Nat → Nat → List Made → Prop
  | nil (first : Nat) : Tiles first first []
  | cons {first last : Nat} {m : Made} {ms : List Made} (hm : m.first = first)
      (hrest : Tiles (first + m.length) last ms) : Tiles first last (m :: ms)

theorem Tiles.append {a b c : Nat} {ms ms' : List Made} (h : Tiles a b ms) (h' : Tiles b c ms') :
    Tiles a c (ms ++ ms') := by
  induction h with
  | nil => exact h'
  | cons hm _ ih => exact .cons hm (ih h')

theorem Tiles.le {a b : Nat} {ms : List Made} (h : Tiles a b ms) : a ≤ b := by
  induction h with
  | nil => exact Nat.le_refl _
  | cons _ _ ih => exact (Nat.le_add_right _ _).trans ih

/-- Each extent lies between the ends. -/
theorem Tiles.mem {a b : Nat} {ms : List Made} (h : Tiles a b ms) {m : Made} (hm : m ∈ ms) :
    a ≤ m.first ∧ m.first + m.length ≤ b := by
  induction h with
  | nil => exact absurd hm List.not_mem_nil
  | cons hfirst hrest ih =>
    have hle := hrest.le
    rcases List.mem_cons.mp hm with rfl | hm
    · omega
    · have := ih hm
      omega

/-- **The extents are disjoint.** -/
theorem Tiles.disjoint {a b : Nat} {ms : List Made} (h : Tiles a b ms) :
    ms.Pairwise fun m m' => Apart (m.first, m.length) (m'.first, m'.length) := by
  induction h with
  | nil => exact .nil
  | cons hfirst hrest ih =>
    refine .cons (fun m' hm' => Or.inl ?_) ih
    have := hrest.mem hm'
    show _ + _ ≤ _
    omega

/-- **The extents are all of the blocks.** -/
theorem Tiles.covered {a b : Nat} {ms : List Made} (h : Tiles a b ms) (block : Nat) :
    (∃ m ∈ ms, Inside block (m.first, m.length)) ↔ a ≤ block ∧ block < b := by
  induction h with
  | nil =>
    constructor
    · rintro ⟨m, hm, -⟩
      exact absurd hm List.not_mem_nil
    · omega
  | @cons first last m ms hfirst hrest ih =>
    have hle := hrest.le
    constructor
    · rintro ⟨m', hm', hin⟩
      rcases List.mem_cons.mp hm' with rfl | hm'
      · obtain ⟨h1, h2⟩ : m'.first ≤ block ∧ block < m'.first + m'.length := hin
        omega
      · have := ih.mp ⟨m', hm', hin⟩
        omega
    · rintro ⟨h1, h2⟩
      by_cases hhere : block < first + m.length
      · exact ⟨m, List.mem_cons_self, show m.first ≤ block by omega,
          show block < m.first + m.length by omega⟩
      · obtain ⟨m', hm', hin⟩ := ih.mpr ⟨by omega, h2⟩
        exact ⟨m', List.mem_cons_of_mem _ hm', hin⟩

mutual

/-- **A plan uses consecutive blocks.** -/
theorem Node.plan_tiles : ∀ (node : Node) (path : List (List UInt8)) (id first next : Nat),
    Tiles first (first + node.blocks) (node.plan path id first next)
  | .file data, _, _, _, _ => by
    unfold Node.plan Node.blocks
    exact .cons rfl (.nil _)
  | .dir entries, _, _, first, next => by
    unfold Node.plan Node.blocks
    rw [← Nat.add_assoc]
    exact .cons rfl (entries.plan_tiles _ _ next)

theorem Entries.plan_tiles : ∀ (entries : Entries) (path : List (List UInt8)) (first next : Nat),
    Tiles first (first + entries.blocks) (entries.plan path first next)
  | .nil, _, first, _ => by
    unfold Entries.plan Entries.blocks
    exact .nil first
  | .cons name node rest, path, first, next => by
    unfold Entries.plan Entries.blocks
    rw [← Nat.add_assoc]
    exact (node.plan_tiles _ _ first _).append (rest.plan_tiles path _ _)

end

mutual

/-- **The numbers of a plan**: the one of its root, 2 for each `3rdstage.bin`, and the next
ones. -/
theorem Node.plan_ids : ∀ (node : Node) (path : List (List UInt8)) (id first next : Nat),
    ((node.plan path id first next).map Made.id).Perm
      (id :: (List.replicate node.thirds 2 ++ List.range' next node.fresh))
  | .file data, _, _, _, _ => by
    unfold Node.plan Node.thirds Node.fresh
    exact .refl _
  | .dir entries, _, _, first, next => by
    unfold Node.plan Node.thirds Node.fresh
    exact (entries.plan_ids _ _ next).cons _

theorem Entries.plan_ids : ∀ (entries : Entries) (path : List (List UInt8)) (first next : Nat),
    ((entries.plan path first next).map Made.id).Perm
      (List.replicate entries.thirds 2 ++ List.range' next entries.fresh)
  | .nil, _, _, _ => by
    unfold Entries.plan Entries.thirds Entries.fresh
    exact .refl _
  | .cons name node rest, path, first, next => by
    unfold Entries.plan Entries.thirds Entries.fresh
    simp only [List.map_append]
    refine ((node.plan_ids _ _ _ _).append (rest.plan_ids _ _ _)).trans ?_
    unfold childId
    rw [List.perm_iff_count]
    intro a
    by_cases hname : name = thirdStage
    · simp only [if_pos hname, List.count_append, List.count_cons, List.replicate_add,
        List.replicate_one, List.count_nil, Nat.zero_add, ← List.range'_append_1]
      omega
    · simp only [if_neg hname, List.count_append, List.count_cons, Nat.zero_add,
        List.replicate_add, Nat.add_assoc, ← List.range'_append_1, List.range'_one,
        List.count_nil]
      omega

end

/-! ## 3. `get_file_info` sums the plan -/

theorem imageBlocks_eq : imageBlocks = 360 := by decide

/-- The most blocks whose bytes a `uint32_t` counts. -/
def maxBlocks : Nat := 1048575

theorem maxBlocks_eq : maxBlocks = 1048575 := rfl

/-- A size with no more blocks is a `uint32_t`. -/
theorem u32_of_blocks {n : Nat} (h : bytesToBlocks n ≤ maxBlocks) : u32 n = n := by
  rw [bytesToBlocks_eq, maxBlocks_eq] at h
  exact u32_eq (by omega)

theorem FileInfo.add_eq {info : FileInfo} {n : Nat}
    (h : info.fileBlocks + bytesToBlocks n ≤ maxBlocks) :
    info.add n = ⟨info.numFiles, info.fileBlocks + bytesToBlocks n⟩ := by
  have hn : u32 n = n := u32_of_blocks ((Nat.le_add_left _ _).trans h)
  rw [maxBlocks_eq] at h
  unfold FileInfo.add
  rw [hn, u32_eq (by omega)]

mutual

theorem nodeInfo_eq : ∀ (node : Node) (info : FileInfo),
    info.numFiles + node.count < 4294967296 → info.fileBlocks + node.blocks ≤ maxBlocks →
      nodeInfo node info = ⟨info.numFiles + node.count, info.fileBlocks + node.blocks⟩
  | .file data, info => by
    unfold nodeInfo Node.count Node.blocks
    exact fun _ h => info.add_eq h
  | .dir entries, info => by
    unfold nodeInfo Node.count Node.blocks
    intro hcount hblocks
    have hsum : info.fileBlocks + entries.blocks +
      bytesToBlocks ((entries.length + 2) * dirEntrySize) ≤ maxBlocks := by omega
    rw [entriesInfo_eq entries info hcount (by omega), FileInfo.add_eq hsum]
    congr 1
    simp only
    omega

/-- **The sums of a directory.** -/
theorem entriesInfo_eq : ∀ (entries : Entries) (info : FileInfo),
    info.numFiles + entries.count < 4294967296 →
    info.fileBlocks + entries.blocks ≤ maxBlocks →
      entriesInfo entries info =
        ⟨info.numFiles + entries.count, info.fileBlocks + entries.blocks⟩
  | .nil, info => by
    unfold entriesInfo Entries.count Entries.blocks
    exact fun _ _ => rfl
  | .cons name node rest, info => by
    unfold entriesInfo Entries.count Entries.blocks
    intro hcount hblocks
    rw [u32_eq (by omega), nodeInfo_eq node _ (by simp only; omega) (by simp only; omega),
      entriesInfo_eq rest _ (by simp only; omega) (by simp only; omega)]
    congr 1 <;> simp only <;> omega

end

/-! ## 4. What is written -/

/-- **The image between two states**: the writes, and the bytes that none of them covers. -/
structure Changed (b b' : Image) (ws : List Write) : Prop where
  writes : b'.writes = b.writes ++ ws
  kept : ∀ p, (∀ w ∈ ws, ¬ Inside p (w.start, w.length)) → b'.bytes p = b.bytes p

theorem Changed.refl {b b' : Image} (hbytes : b'.bytes = b.bytes) (hwrites : b'.writes = b.writes) :
    Changed b b' [] := ⟨by rw [hwrites, List.append_nil], fun p _ => by rw [hbytes]⟩

theorem Changed.trans {b b' b'' : Image} {ws ws' : List Write} (h : Changed b b' ws)
    (h' : Changed b' b'' ws') : Changed b b'' (ws ++ ws') := by
  refine ⟨by rw [h'.writes, h.writes, List.append_assoc], fun p hp => ?_⟩
  rw [h'.kept p fun w hw => hp w (List.mem_append_right _ hw),
    h.kept p fun w hw => hp w (List.mem_append_left _ hw)]

theorem changed_write (b : Image) (owner : Nat) (src : Bytes) (len : Nat) :
    Changed b (b.write owner src len) [⟨owner, b.pos, len⟩] := by
  refine ⟨rfl, fun p hp => blit_out ?_⟩
  have hnot := hp _ (List.mem_singleton_self _)
  unfold Inside at hnot
  simp only at hnot
  omega

/-- **A run of writes from the position on**, for one file or directory. -/
structure Filled (b b' : Image) (owner len : Nat) : Prop where
  pos : b'.pos = b.pos + len
  firstBlock : b'.firstBlock = b.firstBlock
  nextInodeId : b'.nextInodeId = b.nextInodeId
  made : b'.made = b.made
  changed : ∃ ws, Changed b b' ws ∧
    ∀ w ∈ ws, w.owner = owner ∧ b.pos ≤ w.start ∧ w.start + w.length ≤ b.pos + len

theorem filled_write (b : Image) (owner : Nat) (src : Bytes) (len : Nat) :
    Filled b (b.write owner src len) owner len := by
  refine ⟨rfl, rfl, rfl, rfl, _, changed_write b owner src len, fun w hw => ?_⟩
  rw [List.mem_singleton.mp hw]
  exact ⟨rfl, Nat.le_refl _, Nat.le_refl _⟩

theorem Filled.trans {b b' b'' : Image} {owner len len' : Nat} (h : Filled b b' owner len)
    (h' : Filled b' b'' owner len') : Filled b b'' owner (len + len') := by
  obtain ⟨h1, h2, h3, h4, ws, hc, hws⟩ := h
  obtain ⟨h1', h2', h3', h4', ws', hc', hws'⟩ := h'
  refine ⟨by omega, h2'.trans h2, h3'.trans h3, h4'.trans h4, _, hc.trans hc', fun w hw => ?_⟩
  rcases List.mem_append.mp hw with hw | hw
  · have := hws w hw
    omega
  · have := hws' w hw
    omega

theorem Filled.kept {b b' : Image} {owner len p : Nat} (h : Filled b b' owner len)
    (hout : ¬ Inside p (b.pos, len)) : b'.bytes p = b.bytes p := by
  obtain ⟨ws, hchanged, hws⟩ := h.changed
  refine hchanged.kept p fun w hw hin => hout ?_
  have hrange := hws w hw
  unfold Inside at *
  simp only at *
  omega

theorem numPaddingBytes_eq (n : Nat) :
    n + numPaddingBytes n fsBlockSize = bytesToBlocks n * fsBlockSize := by
  rw [bytesToBlocks_eq]
  unfold numPaddingBytes fsBlockSize
  split <;> omega

/-- **The data of a file.** -/
theorem writeSectorsOf_filled (owner : Nat) : ∀ (n : Nat) (data : List UInt8) (total : Nat)
    (b : Image), data.length ≤ n * fsSectorSize →
      Filled b (writeSectorsOf owner n data total b).1 owner data.length ∧
        (writeSectorsOf owner n data total b).2 = total + data.length := by
  intro n
  induction n with
  | zero =>
    intro data total b h
    have hnil : data.length = 0 := by omega
    unfold writeSectorsOf
    rw [hnil]
    exact ⟨⟨rfl, rfl, rfl, rfl, [], .refl rfl rfl, fun w hw => absurd hw List.not_mem_nil⟩, rfl⟩
  | succ n ih =>
    intro data total b h
    unfold writeSectorsOf
    obtain ⟨hfilled, htotal⟩ := ih (data.drop fsSectorSize)
      (total + (data.take fsSectorSize).length) (b.write owner _ (data.take fsSectorSize).length)
      (by rw [List.length_drop]; unfold fsSectorSize at *; omega)
    have hall := (filled_write b owner (fun k => (data.take fsSectorSize).getD k 0)
      (data.take fsSectorSize).length).trans hfilled
    have hlen : (data.take fsSectorSize).length + (data.drop fsSectorSize).length =
      data.length := by
      rw [← List.length_append, List.take_append_drop]
    rw [hlen] at hall
    exact ⟨hall, by rw [htotal]; omega⟩

theorem bytesToSectors_le (n : Nat) : n ≤ bytesToSectors n * fsSectorSize := by
  unfold bytesToSectors fsSectorSize
  split
  · omega
  · split
    · omega
    · split <;> omega

/-- A write inside the inode slot, or inside the extent. -/
def Within (sb : Superblock) (m : Made) (w : Write) : Prop :=
  (inodePos sb m.id ≤ w.start ∧ w.start + w.length ≤ inodePos sb m.id + 64) ∨
    (m.first * fsBlockSize ≤ w.start ∧ w.start + w.length ≤ (m.first + m.length) * fsBlockSize)

/-- The write is for one of these inodes, and stays with it. -/
def Owned (sb : Superblock) (made : List Made) (w : Write) : Prop :=
  ∃ m ∈ made, m.id = w.owner ∧ Within sb m w

theorem Owned.mono {sb : Superblock} {made made' : List Made} {w : Write} (h : Owned sb made w)
    (hsub : ∀ m ∈ made, m ∈ made') : Owned sb made' w := by
  obtain ⟨m, hm, hown⟩ := h
  exact ⟨m, hsub m hm, hown⟩

/-- **What writing a file or directory does**: the cursors move, the plan is made, and every write
is for one of its inodes. -/
structure Wrote (sb : Superblock) (b b' : Image) (ms : List Made) (blocks fresh : Nat) :
    Prop where
  firstBlock : b'.firstBlock = b.firstBlock + blocks
  nextInodeId : b'.nextInodeId = b.nextInodeId + fresh
  made : b'.made = b.made ++ ms
  changed : ∃ ws, Changed b b' ws ∧ ∀ w ∈ ws, Owned sb ms w

/-- The same for the loop over a directory, whose own writes go on from the position. -/
structure WroteEntries (sb : Superblock) (b b' : Image) (id : Nat) (ms : List Made)
    (len blocks fresh : Nat) : Prop where
  pos : b'.pos = b.pos + len
  firstBlock : b'.firstBlock = b.firstBlock + blocks
  nextInodeId : b'.nextInodeId = b.nextInodeId + fresh
  made : b'.made = b.made ++ ms
  changed : ∃ ws, Changed b b' ws ∧ ∀ w ∈ ws, Owned sb ms w ∨
    (w.owner = id ∧ b.pos ≤ w.start ∧ w.start + w.length ≤ b.pos + len)

section Writing

variable {sb : Superblock}

/-- The position of an extent on the disk. -/
theorem seek_extent (b : Image) {first length : Nat} (h : first + length ≤ maxBlocks) :
    (b.seek (u32 (first * fsBlockSize))).pos = first * fsBlockSize := by
  rw [maxBlocks_eq] at h
  unfold fsBlockSize
  exact u32_eq (by omega)

/-- An inode written, and the position at the start of its extent. -/
theorem addInode_changed (b : Image) (m : Made) (pos : Nat)
    (hfirst : b.firstBlock + m.length < 4294967296) :
    ((b.addInode sb m).seek pos).firstBlock = b.firstBlock + m.length ∧
      Changed b ((b.addInode sb m).seek pos) [⟨m.id, inodePos sb m.id, 64⟩] := by
  have hwrite := changed_write ⟨b.bytes, inodePos sb m.id, b.nextInodeId, b.firstBlock, b.made,
    b.writes⟩ m.id (madeInode m).bytes 64
  exact ⟨u32_eq hfirst, rfl, hwrite.kept⟩

theorem Filled.entries {b b' : Image} {id len : Nat} (h : Filled b b' id len) :
    WroteEntries sb b b' id [] len 0 0 := by
  obtain ⟨h1, h2, h3, h4, ws, hc, hws⟩ := h
  exact ⟨h1, h2, h3, h4.trans (List.append_nil _).symm, ws, hc, fun w hw => Or.inr (hws w hw)⟩

theorem WroteEntries.trans {b b' b'' : Image} {id len len' blocks blocks' fresh fresh' : Nat}
    {ms ms' : List Made} (h : WroteEntries sb b b' id ms len blocks fresh)
    (h' : WroteEntries sb b' b'' id ms' len' blocks' fresh') :
    WroteEntries sb b b'' id (ms ++ ms') (len + len') (blocks + blocks') (fresh + fresh') := by
  obtain ⟨h1, h2, h3, h4, ws, hc, hws⟩ := h
  obtain ⟨h1', h2', h3', h4', ws', hc', hws'⟩ := h'
  refine ⟨by omega, by omega, by omega, by rw [h4', h4, List.append_assoc], _, hc.trans hc',
    fun w hw => ?_⟩
  rcases List.mem_append.mp hw with hw | hw
  · rcases hws w hw with hown | ⟨howner, hlo, hhi⟩
    · exact Or.inl (hown.mono fun m hm => List.mem_append_left _ hm)
    · exact Or.inr ⟨howner, hlo, by omega⟩
  · rcases hws' w hw with hown | ⟨howner, hlo, hhi⟩
    · exact Or.inl (hown.mono fun m hm => List.mem_append_right _ hm)
    · exact Or.inr ⟨howner, by omega, by omega⟩

/-- **An inode, and the writes that fill its extent**, those for other inodes among them. -/
theorem WroteEntries.wrote {b b' : Image} {m : Made} {ms : List Made} {len blocks fresh : Nat}
    (hfirst : m.first = b.firstBlock) (hbound : m.first + m.length ≤ maxBlocks)
    (hlen : len ≤ m.length * fsBlockSize)
    (h : WroteEntries sb ((b.addInode sb m).seek (u32 (m.first * fsBlockSize))) b' m.id ms len
      blocks fresh) :
    Wrote sb b b' (m :: ms) (m.length + blocks) fresh := by
  have hstart := seek_extent (b.addInode sb m) hbound
  rw [maxBlocks_eq] at hbound
  obtain ⟨hblock, hchanged⟩ := @addInode_changed sb b m (u32 (m.first * fsBlockSize)) (by omega)
  obtain ⟨-, hf, hn, hm, ws, hws, hown⟩ := h
  refine ⟨by omega, hn, ?_, _, hchanged.trans hws, fun w hw => ?_⟩
  · rw [hm]
    exact List.append_assoc b.made [m] ms
  rcases List.mem_append.mp hw with hw | hw
  · rw [List.mem_singleton.mp hw]
    exact ⟨m, List.mem_cons_self, rfl, Or.inl ⟨Nat.le_refl _, Nat.le_refl _⟩⟩
  · rcases hown w hw with hother | ⟨howner, hlo, hhi⟩
    · exact hother.mono fun m' hm' => List.mem_cons_of_mem _ hm'
    · rw [hstart] at hlo hhi
      refine ⟨m, List.mem_cons_self, howner.symm, Or.inr ⟨hlo, ?_⟩⟩
      rw [Nat.add_mul]
      omega

/-- **An entry, and what is written for it**, with the position set back behind the entry. -/
theorem Wrote.entry {b b' : Image} {id next blocks fresh : Nat} {e : DirEntry} {ms : List Made}
    (hpos : b.pos + dirEntrySize < 4294967296) (hnext : b.nextInodeId ≤ next)
    (h : Wrote sb (({ b with nextInodeId := next } : Image).write id e.bytes dirEntrySize) b' ms
      blocks fresh) :
    WroteEntries sb b (b'.seek (u32 (b.pos + dirEntrySize))) id ms dirEntrySize blocks
      (next - b.nextInodeId + fresh) := by
  obtain ⟨hf, hn, hm, ws, hc, hown⟩ := h
  have hwrite := changed_write b id e.bytes dirEntrySize
  refine ⟨u32_eq hpos, hf, ?_, hm, _, hwrite.trans ⟨hc.writes, hc.kept⟩, fun w hw => ?_⟩
  · have hn' : b'.nextInodeId = next + fresh := hn
    show b'.nextInodeId = _
    omega
  · rcases List.mem_append.mp hw with hw | hw
    · rw [List.mem_singleton.mp hw]
      exact Or.inr ⟨rfl, Nat.le_refl _, Nat.le_refl _⟩
    · exact Or.inl (hown w hw)

/-- The data of a file and its padding fill the extent. -/
theorem writeFile_filled (path : List (List UInt8)) (data : List UInt8) (id : Nat) (b : Image)
    (h : b.firstBlock + bytesToBlocks data.length ≤ maxBlocks) :
    Filled ((b.addInode sb ⟨path, id, filetypeFile, data.length, b.firstBlock,
      bytesToBlocks data.length⟩).seek (u32 (b.firstBlock * fsBlockSize)))
      (writeFile sb path data id b) id (bytesToBlocks data.length * fsBlockSize) := by
  have hsize : u32 data.length = data.length := u32_of_blocks ((Nat.le_add_left _ _).trans h)
  unfold writeFile
  simp only [hsize]
  generalize (b.addInode sb ⟨path, id, filetypeFile, data.length, b.firstBlock,
    bytesToBlocks data.length⟩).seek (u32 (b.firstBlock * fsBlockSize)) = b'
  obtain ⟨hfilled, htotal⟩ := writeSectorsOf_filled id (bytesToSectors data.length) data 0 b'
    (bytesToSectors_le _)
  rw [htotal, Nat.zero_add, ← numPaddingBytes_eq]
  exact hfilled.trans (filled_write _ id (fun _ => 0) (numPaddingBytes data.length fsBlockSize))

/-- **A file.** -/
theorem writeFile_wrote (path : List (List UInt8)) (data : List UInt8) (id : Nat) (b : Image)
    (h : b.firstBlock + bytesToBlocks data.length ≤ maxBlocks) :
    Wrote sb b (writeFile sb path data id b)
      [⟨path, id, filetypeFile, data.length, b.firstBlock, bytesToBlocks data.length⟩]
      (bytesToBlocks data.length) 0 :=
  WroteEntries.wrote rfl h (Nat.le_refl _) (writeFile_filled path data id b h).entries

/-- **The start of a directory**: its inode and the entries `"."` and `".."`. -/
theorem beginDir_filled (path : List (List UInt8)) (size id parent : Nat) (b : Image) :
    Filled ((b.addInode sb ⟨path, id, filetypeDir, size, b.firstBlock, bytesToBlocks size⟩).seek
      (u32 (b.firstBlock * fsBlockSize))) (beginDir sb path size id parent b).1 id
        (2 * dirEntrySize) := by
  unfold beginDir
  exact (filled_write _ id _ dirEntrySize).trans (filled_write _ id _ dirEntrySize)

/-- The position and the cursors at the loop over its entries. -/
theorem beginDir_cursors (path : List (List UInt8)) (size id parent : Nat) (b : Image)
    (h : b.firstBlock + bytesToBlocks size ≤ maxBlocks) :
    (beginDir sb path size id parent b).1.pos = b.firstBlock * fsBlockSize + 2 * dirEntrySize ∧
      (beginDir sb path size id parent b).1.firstBlock = b.firstBlock + bytesToBlocks size ∧
      (beginDir sb path size id parent b).1.nextInodeId = b.nextInodeId := by
  have hfilled := @beginDir_filled sb path size id parent b
  refine ⟨?_, ?_, hfilled.nextInodeId⟩
  · rw [hfilled.pos, seek_extent _ h]
  · have hnext : u32 (b.firstBlock + bytesToBlocks size) = b.firstBlock + bytesToBlocks size := by
      rw [maxBlocks_eq] at h
      exact u32_eq (by omega)
    exact hfilled.firstBlock.trans hnext

/-- **A directory**, given its loop: the loop and the padding fill the extent. -/
theorem WroteEntries.directory {path : List (List UInt8)} {size id parent len blocks fresh : Nat}
    {b b' : Image} {ms : List Made} (h : b.firstBlock + bytesToBlocks size ≤ maxBlocks)
    (hsize : 2 * dirEntrySize + len = size)
    (hloop : WroteEntries sb (beginDir sb path size id parent b).1 b' id ms len blocks fresh) :
    b'.pos = b.firstBlock * fsBlockSize + size ∧
      WroteEntries sb ((b.addInode sb ⟨path, id, filetypeDir, size, b.firstBlock,
        bytesToBlocks size⟩).seek (u32 (b.firstBlock * fsBlockSize))) (b'.pad id size) id ms
        (bytesToBlocks size * fsBlockSize) blocks fresh := by
  obtain ⟨hat, -, -⟩ := @beginDir_cursors sb path size id parent b h
  have hstart := @Filled.entries sb _ _ _ _ (@beginDir_filled sb path size id parent b)
  have hall := (hstart.trans hloop).trans (filled_write _ id (fun _ => 0)
    (numPaddingBytes size fsBlockSize)).entries
  rw [hsize, numPaddingBytes_eq, List.nil_append, List.append_nil] at hall
  simp only [Nat.zero_add, Nat.add_zero] at hall
  refine ⟨?_, hall⟩
  rw [hloop.pos, hat]
  omega

/-- The next number does not overflow. -/
theorem nextId_eq {name : List UInt8} {next : Nat}
    (h : next + (if name = thirdStage then 0 else 1) < 4294967296) :
    nextId name next = if name = thirdStage then next else next + 1 := by
  unfold nextId
  by_cases hname : name = thirdStage
  · rw [if_pos hname, if_pos hname]
  · rw [if_neg hname] at h
    rw [if_neg hname, if_neg hname]
    exact u32_eq h

mutual

/-- **Writing a file or directory follows the plan.** -/
theorem writeNode_wrote : ∀ (node : Node) (path : List (List UInt8)) (id parent : Nat)
    (b : Image), b.firstBlock + node.blocks ≤ maxBlocks →
    b.nextInodeId + node.fresh < 4294967296 →
      Wrote sb b (writeNode sb node path id parent b)
        (node.plan path id b.firstBlock b.nextInodeId) node.blocks node.fresh
  | .file data, path, id, _, b => by
    unfold writeNode Node.plan Node.blocks Node.fresh
    exact fun h _ => writeFile_wrote path data id b h
  | .dir entries, path, id, parent, b => by
    unfold writeNode Node.plan Node.blocks Node.fresh
    intro hblocks hfresh
    have hsize : u32 ((entries.length + 2) * dirEntrySize) = (entries.length + 2) * dirEntrySize :=
      u32_of_blocks (by omega)
    simp only [hsize]
    generalize hbytes : (entries.length + 2) * dirEntrySize = size at *
    have hsum : 2 * dirEntrySize + entries.length * dirEntrySize = size := by
      rw [← hbytes, Nat.add_mul]
      omega
    have hextent : b.firstBlock + bytesToBlocks size ≤ maxBlocks := by omega
    obtain ⟨hat, hbefore, hsame⟩ := @beginDir_cursors sb path size id parent b hextent
    have hroom := numPaddingBytes_eq size
    have hloop := writeEntries_wrote entries path id (beginDir sb path size id parent b).2
      (beginDir sb path size id parent b).1 (by omega) (by omega) (by
      rw [hat]
      rw [maxBlocks_eq] at hextent
      unfold fsBlockSize at *
      omega)
    rw [hbefore, hsame] at hloop
    exact WroteEntries.wrote rfl hextent (Nat.le_refl _) (hloop.directory hextent hsum).2

/-- **The loop over a directory follows the plan.** -/
theorem writeEntries_wrote : ∀ (entries : Entries) (path : List (List UInt8)) (id : Nat)
    (e : DirEntry) (b : Image),
    b.firstBlock + entries.blocks ≤ maxBlocks → b.nextInodeId + entries.fresh < 4294967296 →
    b.pos + entries.length * dirEntrySize < 4294967296 →
      WroteEntries sb b (writeEntries sb entries path id e b) id
        (entries.plan path b.firstBlock b.nextInodeId) (entries.length * dirEntrySize)
        entries.blocks entries.fresh
  | .nil, _, _, _, b => by
    unfold writeEntries Entries.plan Entries.blocks Entries.fresh Entries.length
    intro _ _ _
    exact ⟨by omega, rfl, rfl, (List.append_nil _).symm, [], .refl rfl rfl,
      fun w hw => absurd hw List.not_mem_nil⟩
  | .cons name node rest, path, id, e, b => by
    unfold writeEntries Entries.plan Entries.blocks Entries.fresh Entries.length
    intro hblocks hfresh hposition
    have hnext := @nextId_eq name b.nextInodeId (by omega)
    have hstep : (if name = thirdStage then b.nextInodeId else b.nextInodeId + 1) =
        b.nextInodeId + if name = thirdStage then 0 else 1 := by
      split <;> rfl
    rw [Nat.add_mul, Nat.one_mul] at hposition
    simp only [hnext, hstep]
    generalize (if name = thirdStage then 0 else 1) = step at *
    -- the entry and what it names, and then the rest
    have hnode := writeNode_wrote node (path ++ [name]) (childId name b.nextInodeId) id
      (({ b with nextInodeId := b.nextInodeId + step } : Image).write id
        (e.fill (childId name b.nextInodeId) name).bytes dirEntrySize)
      (show b.firstBlock + node.blocks ≤ maxBlocks by omega)
      (show b.nextInodeId + step + node.fresh < 4294967296 by omega)
    have hentry := hnode.entry (by omega) (Nat.le_add_right _ _)
    rw [Nat.add_sub_cancel_left] at hentry
    have hrest := writeEntries_wrote rest path id (e.fill (childId name b.nextInodeId) name) _
      (by rw [hentry.firstBlock]; omega) (by rw [hentry.nextInodeId]; omega)
      (by rw [hentry.pos]; omega)
    have hall := hentry.trans hrest
    rw [hentry.firstBlock, hentry.nextInodeId, ← Nat.add_assoc] at hall
    rw [Nat.add_mul, Nat.one_mul, Nat.add_comm (rest.length * dirEntrySize)]
    exact hall

end

end Writing

/-! ## 5. The two passes -/

mutual

theorem Node.count_eq : ∀ node : Node, node.count = node.fresh + node.thirds
  | .file _ => by
    unfold Node.count Node.fresh Node.thirds
    rfl
  | .dir entries => by
    unfold Node.count Node.fresh Node.thirds
    exact entries.count_eq

theorem Entries.count_eq : ∀ entries : Entries, entries.count = entries.fresh + entries.thirds
  | .nil => by
    unfold Entries.count Entries.fresh Entries.thirds
    rfl
  | .cons name node rest => by
    unfold Entries.count Entries.fresh Entries.thirds
    have hnode := node.count_eq
    have hrest := rest.count_eq
    split <;> omega

end

mutual

/-- Below its root a plan gives number 2 to `3rdstage.bin` and to nothing else. -/
theorem Node.plan_third : ∀ (node : Node) (path : List (List UInt8)) (id first next : Nat),
    3 ≤ next → ∀ m ∈ node.plan path id first next,
      (m.id = id ∧ m.path = path) ∨ (m.id = 2 ↔ m.path.getLast? = some thirdStage)
  | .file data, path, id, first, next => by
    unfold Node.plan
    intro _ m hm
    rw [List.mem_singleton.mp hm]
    exact Or.inl ⟨rfl, rfl⟩
  | .dir entries, path, id, first, next => by
    unfold Node.plan
    intro hnext m hm
    rcases List.mem_cons.mp hm with rfl | hm
    · exact Or.inl ⟨rfl, rfl⟩
    · exact Or.inr (entries.plan_third _ _ next hnext m hm)

theorem Entries.plan_third : ∀ (entries : Entries) (path : List (List UInt8)) (first next : Nat),
    3 ≤ next → ∀ m ∈ entries.plan path first next, m.id = 2 ↔ m.path.getLast? = some thirdStage
  | .nil, _, _, _ => by
    unfold Entries.plan
    exact fun _ m hm => absurd hm List.not_mem_nil
  | .cons name node rest, path, first, next => by
    unfold Entries.plan
    intro hnext m hm
    have hafter : 3 ≤ if name = thirdStage then next else next + 1 := by
      split <;> omega
    rcases List.mem_append.mp hm with hm | hm
    · rcases node.plan_third _ _ _ _ hafter m hm with ⟨hid, hpath⟩ | hiff
      · rw [hid, hpath, List.getLast?_concat, Option.some_inj]
        unfold childId
        by_cases hthird : name = thirdStage
        · rw [if_pos hthird]
          exact ⟨fun _ => hthird, fun _ => rfl⟩
        · rw [if_neg hthird]
          exact ⟨fun h => absurd h (by omega), fun h => absurd h hthird⟩
      · exact hiff
    · exact rest.plan_third _ _ _ (hafter.trans (Nat.le_add_right _ _)) m hm

end

/-- The numbers of the superblock of an image. -/
structure Sizes (sb : Superblock) (files blocks : Nat) : Prop where
  layout : sb.layout = ⟨2, 1, 3, 1, 4, builtInodeBlocks files, builtFirstBlock files, 4⟩
  inodes : sb.numInodes = files + 2
  freeInode : sb.firstFreeInodeBit = files + 2
  freeData : sb.firstFreeDataBit = builtEndBlock files blocks

theorem Fits.bounds {root : Entries} (h : Fits root) :
    builtInodeBlocks root.count + (Node.dir root).blocks + 4 ≤ 360 ∧
      root.count + 2 ≤ builtInodeBlocks root.count * 64 := by
  have hdiv : builtInodeBlocks root.count = ((root.count + 2) * 64 + 4095) / 4096 :=
    bytesToBlocks_eq _
  unfold Fits at h
  rw [imageBlocks_eq] at h
  unfold builtEndBlock builtFirstBlock at h
  omega

/-- A directory takes a block. -/
theorem one_le_blocks (root : Entries) : 1 ≤ (Node.dir root).blocks := by
  unfold Node.blocks
  rw [bytesToBlocks_eq]
  unfold dirEntrySize
  omega

/-- **The superblock of a tree that fits.** -/
theorem Fits.sizes {root : Entries} (h : Fits root) (bootBlock : Bytes) :
    Sizes (makeDisk bootBlock root).1 root.count (Node.dir root).blocks := by
  have hbounds := h.bounds
  have hinfo : getFileInfo root = ⟨root.count, (Node.dir root).blocks⟩ := by
    unfold getFileInfo
    rw [nodeInfo_eq]
    · simp only [Nat.zero_add]
      rfl
    · show 0 + root.count < _
      omega
    · rw [maxBlocks_eq]
      simp only
      omega
  have hsb : (makeDisk bootBlock root).1 = writeSuperblock root.count (Node.dir root).blocks := by
    unfold makeDisk
    simp only [hinfo]
  obtain ⟨hlayout, hinode, hdata⟩ := @writeSuperblock_fields root.count (Node.dir root).blocks
    (builtInodeBlocks root.count) 0 (one_le_blocks root) rfl h _ rfl
  obtain ⟨hnum, -⟩ := @built_sizes root.count (Node.dir root).blocks
    (builtInodeBlocks root.count) (one_le_blocks root) rfl h
  have hsame : ∀ off, off ≠ 31 → (off + 4 ≤ 31 ∨ 35 ≤ off) →
      ((writeSuperblock root.count (Node.dir root).blocks).setRootInodePointer 0).get32 off =
        (writeSuperblock root.count (Node.dir root).blocks).get32 off :=
    fun off _ hoff => (Packed.same_set32 (by omega)).get32
  rw [hsb]
  refine ⟨?_, ?_, ?_, ?_⟩
  · exact (Superblock.layout_set32 (Or.inl rfl)).symm.trans hlayout
  · unfold writeSuperblock Superblock.numInodes
    simp (disch := decide) only [Packed.get32_set32, Packed.get32_set8_ne, Packed.get32_set16_ne,
      Packed.get32_set32_ne]
    rw [hnum, u32_eq (by omega)]
  · rw [← hinode]
    exact (hsame 39 (by decide) (by decide)).symm
  · exact (hsame 43 (by decide) (by decide)).symm.trans hdata

/-- An inode of the table: its slot lies in the inode blocks. -/
theorem Sizes.slot {sb : Superblock} {files blocks id : Nat} (h : Sizes sb files blocks)
    (hbounds : builtInodeBlocks files + blocks + 4 ≤ 360) (hid : id < builtInodeBlocks files * 64) :
    inodePos sb id = sb.firstInodeBlock * fsBlockSize + id * 64 := by
  have hinode : sb.firstInodeBlock = 4 := congrArg Layout.inodeArea h.layout
  have hblock : u32 (4 + id / 64) = 4 + id / 64 := u32_eq (by omega)
  have hbyte : u32 ((4 + id / 64) * 4096) = (4 + id / 64) * 4096 := u32_eq (by omega)
  unfold inodePos fsBlockSize
  rw [hinode, hblock, hbyte]
  omega

/-- The writes in front of the inodes are for no file. -/
theorem writeAreas_writes (bootBlock : Bytes) (sb : Superblock) :
    ∀ w ∈ (writeAreas bootBlock sb).writes, w.owner = 0 := by
  unfold writeAreas writeBitmap Image.pad Image.write
  simp

/-- **What `make_disk` writes into the image** follows the plan. -/
theorem makeDisk_wrote {root : Entries} (h : Fits root) (bootBlock : Bytes) :
    Wrote (makeDisk bootBlock root).1
      { writeAreas bootBlock (makeDisk bootBlock root).1 with
        firstBlock := (makeDisk bootBlock root).1.firstDataBlock }
      (makeDisk bootBlock root).2
      ((Node.dir root).plan [] 1 (builtFirstBlock root.count) 3) (Node.dir root).blocks
      root.fresh := by
  have hbounds := h.bounds
  have hsizes := h.sizes bootBlock
  have hfirst : (makeDisk bootBlock root).1.firstDataBlock = builtFirstBlock root.count :=
    congrArg Layout.dataArea hsizes.layout
  have hcount := root.count_eq
  have hfresh : (Node.dir root).fresh = root.fresh := by unfold Node.fresh; rfl
  have hwrote := @writeNode_wrote (makeDisk bootBlock root).1 (.dir root) [] 1 1
    { writeAreas bootBlock (makeDisk bootBlock root).1 with
      firstBlock := (makeDisk bootBlock root).1.firstDataBlock }
    (by
      show (makeDisk bootBlock root).1.firstDataBlock + _ ≤ _
      rw [hfirst, maxBlocks_eq]
      unfold builtFirstBlock
      omega)
    (by
      show 3 + _ < _
      rw [hfresh]
      omega)
  rw [hfresh] at hwrote
  have hplan : ((Node.dir root).plan [] 1 (makeDisk bootBlock root).1.firstDataBlock 3) =
    (Node.dir root).plan [] 1 (builtFirstBlock root.count) 3 := by rw [hfirst]
  exact hplan ▸ hwrote

/-- **The numbers of the plan** of a tree with one `3rdstage.bin`. -/
theorem rootPlan_ids {root : Entries} (hone : root.thirds = 1) (first : Nat) :
    (((Node.dir root).plan [] 1 first 3).map Made.id).Perm (List.range' 1 (root.count + 1)) := by
  have hthirds : (Node.dir root).thirds = 1 := by
    unfold Node.thirds
    exact hone
  have hfresh : (Node.dir root).fresh = root.fresh := by
    unfold Node.fresh
    rfl
  refine ((Node.dir root).plan_ids [] 1 first 3).trans ?_
  rw [hthirds, hfresh, root.count_eq, hone, List.replicate_one]
  exact .refl _

/-- **The slots of the plan** are in the inode blocks. -/
theorem Fits.slot {root : Entries} (h : Fits root) (hone : root.thirds = 1) (bootBlock : Bytes)
    {m : Made} (hm : m ∈ (Node.dir root).plan [] 1 (builtFirstBlock root.count) 3) :
    inodePos (makeDisk bootBlock root).1 m.id = 4 * fsBlockSize + m.id * 64 ∧
      m.id < root.count + 2 := by
  obtain ⟨hinodes, hcap⟩ := h.bounds
  have hsizes := h.sizes bootBlock
  have harea : (makeDisk bootBlock root).1.firstInodeBlock = 4 :=
    congrArg Layout.inodeArea hsizes.layout
  have hmem := (rootPlan_ids hone _).mem_iff.mp (List.mem_map_of_mem hm)
  rw [List.mem_range'_1] at hmem
  rw [hsizes.slot hinodes (by omega), harea]
  omega

/-- An empty `3rdstage.bin`, and a directory with a file of one block and an empty directory. -/
def smallTree : Entries :=
  .cons thirdStage (.file []) <|
    .cons (text "bin")
      (.dir <| .cons (text "a") (.file [1, 2, 3]) <| .cons (text "b") (.dir .nil) .nil) .nil

end AmateurOs.MakeDisk
