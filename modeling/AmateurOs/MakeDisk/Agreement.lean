/-
# The two passes agree

`get_file_info` counts files and blocks, the superblock is sized from the counts, and
`write_file_data` hands out numbers and blocks and writes the image.  `passes_agree` is what the
image and its superblock have in common, for every tree that fits on the disk.

The lists `made` and `writes` of the model are tied to the bytes on both sides: every inode is in
its slot of the finished image (`writeNode_inodes`, which asks nothing of the names), and what no
write covers is zero (`writeAreas_changed`).
-/
import AmateurOs.MakeDisk.Lookup

namespace AmateurOs.MakeDisk

open AmateurOs.Lib AmateurOs.Fs

/-! ## 1. Inodes in their slots -/

section

variable {sb : Superblock}

mutual

/-- **The inodes of a file or directory are in their slots** once it is written. -/
theorem writeNode_inodes : ∀ (node : Node) (path : List (List UInt8)) (id parent : Nat)
    (b : Image), b.firstBlock + node.blocks ≤ maxBlocks →
    b.nextInodeId + node.fresh < 4294967296 →
    Separate sb (node.plan path id b.firstBlock b.nextInodeId) →
      ∀ m ∈ node.plan path id b.firstBlock b.nextInodeId,
        HasInode sb (writeNode sb node path id parent b).bytes m
  | .file data, path, id, _, b => by
    unfold writeNode Node.plan Node.blocks
    intro hblocks _ hsep m hm
    obtain rfl := List.mem_singleton.mp hm
    refine hasInode_addInode fun p hp => (writeFile_filled path data id b hblocks).kept ?_
    rw [seek_extent _ hblocks]
    exact hsep.own _ (List.mem_singleton_self _) p hp
  | .dir entries, path, id, parent, b => by
    unfold writeNode Node.plan Node.blocks Node.fresh
    intro hblocks hfresh hsep m hm
    have hsize : u32 ((entries.length + 2) * dirEntrySize) = (entries.length + 2) * dirEntrySize :=
      u32_of_blocks (by omega)
    simp only [hsize] at hsep hm ⊢
    have hsum : 2 * dirEntrySize + entries.length * dirEntrySize =
        (entries.length + 2) * dirEntrySize := by
      rw [Nat.add_mul]
      omega
    generalize (entries.length + 2) * dirEntrySize = size at *
    have hextent : b.firstBlock + bytesToBlocks size ≤ maxBlocks := by omega
    have hroom := numPaddingBytes_eq size
    obtain ⟨hat, hbefore, hsame⟩ := @beginDir_cursors sb path size id parent b hextent
    have hposition : (beginDir sb path size id parent b).1.pos + entries.length * dirEntrySize <
        4294967296 := by
      rw [hat]
      rw [maxBlocks_eq] at hextent
      unfold fsBlockSize at *
      omega
    have hloop := @writeEntries_wrote sb entries path id (beginDir sb path size id parent b).2
      (beginDir sb path size id parent b).1 (by omega) (by omega) hposition
    have hinodes := writeEntries_inodes entries path id (beginDir sb path size id parent b).2
      (beginDir sb path size id parent b).1 (by omega) (by omega) hposition
    rw [hbefore, hsame] at hloop hinodes
    obtain ⟨hpos, hall⟩ := hloop.directory hextent hsum
    rw [hat] at hinodes
    have hown : ∀ {p : Nat}, Inside p (b.firstBlock * fsBlockSize, bytesToBlocks size * fsBlockSize) →
        ∀ m ∈ entries.plan path (b.firstBlock + bytesToBlocks size) b.nextInodeId,
          ¬ Region sb m p := fun hp => hsep.head (Or.inr hp)
    rcases List.mem_cons.mp hm with rfl | hm
    · refine hasInode_addInode fun p hp => hall.kept (hsep.head (Or.inl hp)) ?_
      rw [seek_extent _ hextent]
      exact hsep.own _ List.mem_cons_self p hp
    · -- the padding is in the extent of the directory
      refine (hinodes hsep.tail (fun m hm p hp =>
        hown (inside_mono hp (by omega) (by omega)) m hm) m hm).congr fun p hp => ?_
      refine (filled_write _ id _ _).kept fun hin => hown ?_ m hm (Or.inl hp)
      rw [hpos] at hin
      exact inside_mono hin (by omega) (by omega)

/-- The same for the loop over a directory. -/
theorem writeEntries_inodes : ∀ (entries : Entries) (path : List (List UInt8)) (id : Nat)
    (e : DirEntry) (b : Image),
    b.firstBlock + entries.blocks ≤ maxBlocks → b.nextInodeId + entries.fresh < 4294967296 →
    b.pos + entries.length * dirEntrySize < 4294967296 →
    Separate sb (entries.plan path b.firstBlock b.nextInodeId) →
    (∀ m ∈ entries.plan path b.firstBlock b.nextInodeId, ∀ p,
      Inside p (b.pos, entries.length * dirEntrySize) → ¬ Region sb m p) →
      ∀ m ∈ entries.plan path b.firstBlock b.nextInodeId,
        HasInode sb (writeEntries sb entries path id e b).bytes m
  | .nil, _, _, _, _ => by
    unfold Entries.plan
    exact fun _ _ _ _ _ m hm => absurd hm List.not_mem_nil
  | .cons name node rest, path, id, e, b => by
    unfold writeEntries Entries.plan Entries.blocks Entries.fresh Entries.length
    intro hblocks hfresh hposition hsep hown m hm
    have hnext := @nextId_eq name b.nextInodeId (by omega)
    have hstep : (if name = thirdStage then b.nextInodeId else b.nextInodeId + 1) =
        b.nextInodeId + if name = thirdStage then 0 else 1 := by
      split <;> rfl
    rw [Nat.add_mul, Nat.one_mul] at hposition hown
    simp only [hnext, hstep] at hsep hown hm ⊢
    generalize (if name = thirdStage then 0 else 1) = step at *
    generalize childId name b.nextInodeId = child at *
    -- the image after the entry
    obtain ⟨b₁, hb₁⟩ : ∃ b₁, b₁ = ({ b with nextInodeId := b.nextInodeId + step } : Image).write id
      (e.fill child name).bytes dirEntrySize := ⟨_, rfl⟩
    rw [← hb₁]
    have hpos₁ : b₁.pos = b.pos + dirEntrySize := congrArg Image.pos hb₁
    have hfirst₁ : b₁.firstBlock = b.firstBlock := by rw [hb₁]; rfl
    have hnext₁ : b₁.nextInodeId = b.nextInodeId + step := by rw [hb₁]; rfl
    clear hb₁
    rw [← hfirst₁, ← hnext₁] at hsep hown hm
    -- what it names
    have hwrote := @writeNode_wrote sb node (path ++ [name]) child id b₁ (by omega) (by omega)
    have hinodes := writeNode_inodes node (path ++ [name]) child id b₁ (by omega) (by omega)
      hsep.left
    rw [hpos₁, u32_eq (by omega)]
    generalize writeNode sb node (path ++ [name]) child id b₁ = b₂ at *
    -- the rest
    have hfirst₂ : (b₂.seek (b.pos + dirEntrySize)).firstBlock = b₁.firstBlock + node.blocks :=
      hwrote.firstBlock
    have hnext₂ : (b₂.seek (b.pos + dirEntrySize)).nextInodeId = b₁.nextInodeId + node.fresh :=
      hwrote.nextInodeId
    have hpos₂ : (b₂.seek (b.pos + dirEntrySize)).pos = b.pos + dirEntrySize := rfl
    have hrestWrote := @writeEntries_wrote sb rest path id (e.fill child name)
      (b₂.seek (b.pos + dirEntrySize)) (by omega) (by omega) (by omega)
    have hrestInodes := writeEntries_inodes rest path id (e.fill child name)
      (b₂.seek (b.pos + dirEntrySize)) (by omega) (by omega) (by omega)
    rw [hfirst₂, hnext₂, hpos₂] at hrestInodes
    rw [hfirst₂, hnext₂] at hrestWrote
    have hwide : ∀ {p : Nat}, Inside p (b.pos + dirEntrySize, rest.length * dirEntrySize) →
        Inside p (b.pos, rest.length * dirEntrySize + dirEntrySize) :=
      fun hp => inside_mono hp (by omega) (by omega)
    rcases List.mem_append.mp hm with hm | hm
    · refine (hinodes m hm).congr fun p hp =>
        hrestWrote.kept (hsep.across hm (Or.inl hp)) fun hin => ?_
      exact hown m (List.mem_append_left _ hm) p (hwide hin) (Or.inl hp)
    · exact hrestInodes hsep.right (fun m hm p hp =>
        hown m (List.mem_append_right _ hm) p (hwide hp)) m hm

end

end

/-- **Every inode of the image** is in its slot. -/
theorem makeDisk_inodes {root : Entries} (h : Fits root) (hone : root.thirds = 1)
    (bootBlock : Bytes) :
    ∀ m ∈ (Node.dir root).plan [] 1 (builtFirstBlock root.count) 3,
      HasInode (makeDisk bootBlock root).1 (makeDisk bootBlock root).2.bytes m := by
  obtain ⟨hinodes, hcap⟩ := h.bounds
  have hfirst : (makeDisk bootBlock root).1.firstDataBlock = builtFirstBlock root.count :=
    congrArg Layout.dataArea (h.sizes bootBlock).layout
  have hcount := root.count_eq
  have hfresh : (Node.dir root).fresh = root.fresh := by
    unfold Node.fresh
    rfl
  obtain ⟨b, hb⟩ : ∃ b : Image, b = { writeAreas bootBlock (makeDisk bootBlock root).1 with
    firstBlock := (makeDisk bootBlock root).1.firstDataBlock } := ⟨_, rfl⟩
  have hblock : b.firstBlock = builtFirstBlock root.count := by
    rw [hb]
    exact hfirst
  have hnext : b.nextInodeId = 3 := by
    rw [hb]
    rfl
  have hmake : (makeDisk bootBlock root).2 =
      writeNode (makeDisk bootBlock root).1 (.dir root) [] 1 1 b := by
    rw [hb]
    rfl
  have hblocks : b.firstBlock + (Node.dir root).blocks ≤ maxBlocks := by
    rw [hblock, maxBlocks_eq]
    unfold builtFirstBlock
    omega
  have hall := @writeNode_inodes (makeDisk bootBlock root).1 (.dir root) [] 1 1 b hblocks (by omega)
  rw [hblock, hnext, ← hmake] at hall
  exact hall (h.separate hone bootBlock)

/-- An empty image file. -/
def emptyImage : Image := ⟨fun _ => 0, 0, 3, 0, [], []⟩

theorem writeBitmap_changed (bits : Nat) (b : Image) : ∃ ws, Changed b (writeBitmap bits b) ws :=
  ⟨_, (changed_write b 0 _ _).trans (changed_write _ 0 _ _)⟩

/-- The writes in front of the inodes, from an empty file on. -/
theorem writeAreas_changed (bootBlock : Bytes) (sb : Superblock) :
    Changed emptyImage (writeAreas bootBlock sb) (writeAreas bootBlock sb).writes := by
  have hboot := changed_write emptyImage 0 bootBlock fsBlockSize
  have hareas : writeAreas bootBlock sb = writeBitmap (sb.get16 22) (writeBitmap sb.numInodes
      (((emptyImage.write 0 bootBlock fsBlockSize).write 0 sb.bytes 64).pad 0 64)) := rfl
  rw [hareas]
  generalize emptyImage.write 0 bootBlock fsBlockSize = b at *
  have hsuper := changed_write b 0 sb.bytes 64
  generalize b.write 0 sb.bytes 64 = b' at *
  have hpad : Changed b' (b'.pad 0 64) _ := changed_write b' 0 _ _
  obtain ⟨ws, hinodes⟩ := writeBitmap_changed sb.numInodes (b'.pad 0 64)
  obtain ⟨ws', hdata⟩ := writeBitmap_changed (sb.get16 22) (writeBitmap sb.numInodes (b'.pad 0 64))
  have hall := (((hboot.trans hsuper).trans hpad).trans hinodes).trans hdata
  have hwrites := hall.writes
  rw [show emptyImage.writes = [] from rfl, List.nil_append] at hwrites
  exact hwrites ▸ hall

/-! ## 2. What the passes agree on -/

/-- **What the passes agree on.** -/
structure PassesAgree (sb : Superblock) (b : Image) : Prop where
  /-- The numbers are 1 to `num_inodes - 1`, each once. -/
  ids : (b.made.map Made.id).Perm (List.range' 1 (sb.numInodes - 1))
  root : ∃ m, b.made.head? = some m ∧ m.id = 1
  third : ∀ m ∈ b.made.tail, m.id = 2 ↔ m.path.getLast? = some thirdStage
  /-- Every inode lies in the inode blocks. -/
  table : ∀ m ∈ b.made, sb.firstInodeBlock * fsBlockSize ≤ inodePos sb m.id ∧
    inodePos sb m.id + 64 ≤ (sb.firstInodeBlock + sb.numInodeBlocks) * fsBlockSize
  /-- The extents are disjoint, and are the blocks in use of the data area. -/
  extents : b.made.Pairwise fun m m' => Apart (m.first, m.length) (m'.first, m'.length)
  blocks : ∀ block, (∃ m ∈ b.made, Inside block (m.first, m.length)) ↔
    sb.firstDataBlock ≤ block ∧ block < sb.firstFreeDataBit
  /-- The inode in the slot says what was made: its number, type, size and extent. -/
  stored : ∀ m ∈ b.made, IsInodeOf (Packed.load b.bytes (inodePos sb m.id)) m
  /-- The writes are all there are: other bytes are those of an empty file. -/
  written : ∀ p, (∀ w ∈ b.writes, ¬ Inside p (w.start, w.length)) → b.bytes p = 0
  /-- A write for a file or directory leaves the blocks of the others alone. -/
  writes : ∀ w ∈ b.writes, w.owner ≠ 0 → ∀ m ∈ b.made, m.id ≠ w.owner →
    Apart (w.start, w.length) (m.first * fsBlockSize, m.length * fsBlockSize)

/-- A write inside the blocks of one file or directory is apart from the blocks of another. -/
theorem Made.write_apart {m m' : Made} (h : Apart (m'.first, m'.length) (m.first, m.length))
    {start length : Nat} (hlo : m'.first * fsBlockSize ≤ start)
    (hhi : start + length ≤ (m'.first + m'.length) * fsBlockSize) :
    Apart (start, length) (m.first * fsBlockSize, m.length * fsBlockSize) := by
  rcases h with hle | hle
  · refine Or.inl ?_
    have hle : m'.first + m'.length ≤ m.first := hle
    show start + length ≤ m.first * fsBlockSize
    exact hhi.trans (Nat.mul_le_mul_right _ hle)
  · refine Or.inr ?_
    have hle : m.first + m.length ≤ m'.first := hle
    show m.first * fsBlockSize + m.length * fsBlockSize ≤ start
    rw [← Nat.add_mul]
    exact (Nat.mul_le_mul_right _ hle).trans hlo

end AmateurOs.MakeDisk
