/-
# What an image holds

When the image is complete, every inode of the plan is in its slot, and the blocks of a directory
list its entries and end in zeros (`Node.Stored`, `makeDisk_stored`).

Each inode and each entry is written once, and what is written later goes elsewhere: the slots
and extents of a plan are separate (`Separate`), and so a part of the tree that is stored stays
stored (`Node.Stored.congr`).
-/
import AmateurOs.MakeDisk.Plan

namespace AmateurOs.MakeDisk

open AmateurOs.Lib AmateurOs.Fs

/-! ## 1. Slots and extents -/

/-- A byte of the slot of an inode, or of its extent. -/
def Region (sb : Superblock) (m : Made) (p : Nat) : Prop :=
  Inside p (inodePos sb m.id, 64) ∨ Inside p (m.first * fsBlockSize, m.length * fsBlockSize)

theorem inside_mono {p a len a' len' : Nat} (h : Inside p (a, len)) (hlo : a' ≤ a)
    (hhi : a + len ≤ a' + len') : Inside p (a', len') :=
  ⟨hlo.trans h.1, Nat.lt_of_lt_of_le h.2 hhi⟩

/-- No byte is in two slots or extents. -/
structure Separate (sb : Superblock) (ms : List Made) : Prop where
  own : ∀ m ∈ ms, ∀ p, Inside p (inodePos sb m.id, 64) →
    ¬ Inside p (m.first * fsBlockSize, m.length * fsBlockSize)
  others : ms.Pairwise fun m m' => ∀ p, Region sb m p → ¬ Region sb m' p

variable {sb : Superblock}

theorem Separate.head {m : Made} {ms : List Made} (h : Separate sb (m :: ms)) {p : Nat}
    (hp : Region sb m p) : ∀ m' ∈ ms, ¬ Region sb m' p :=
  fun m' hm' => (List.pairwise_cons.mp h.others).1 m' hm' p hp

theorem Separate.tail {m : Made} {ms : List Made} (h : Separate sb (m :: ms)) : Separate sb ms :=
  ⟨fun m' hm' => h.own m' (List.mem_cons_of_mem _ hm'), (List.pairwise_cons.mp h.others).2⟩

theorem Separate.left {ms ms' : List Made} (h : Separate sb (ms ++ ms')) : Separate sb ms :=
  ⟨fun m hm => h.own m (List.mem_append_left _ hm), (List.pairwise_append.mp h.others).1⟩

theorem Separate.right {ms ms' : List Made} (h : Separate sb (ms ++ ms')) : Separate sb ms' :=
  ⟨fun m hm => h.own m (List.mem_append_right _ hm), (List.pairwise_append.mp h.others).2.1⟩

theorem Separate.across {ms ms' : List Made} (h : Separate sb (ms ++ ms')) {m : Made}
    (hm : m ∈ ms) {p : Nat} (hp : Region sb m p) : ∀ m' ∈ ms', ¬ Region sb m' p :=
  fun m' hm' => (List.pairwise_append.mp h.others).2.2 m hm m' hm' p hp

/-- The bytes outside the regions written to are kept. -/
theorem Wrote.kept {b b' : Image} {ms : List Made} {blocks fresh p : Nat}
    (h : Wrote sb b b' ms blocks fresh) (hp : ∀ m ∈ ms, ¬ Region sb m p) :
    b'.bytes p = b.bytes p := by
  obtain ⟨ws, hchanged, hown⟩ := h.changed
  refine hchanged.kept p fun w hw hin => ?_
  obtain ⟨m, hm, -, hwithin⟩ := hown w hw
  refine hp m hm ?_
  unfold Within at hwithin
  unfold Region Inside at *
  rw [Nat.add_mul] at hwithin
  omega

theorem WroteEntries.kept {b b' : Image} {ms : List Made} {id len blocks fresh p : Nat}
    (h : WroteEntries sb b b' id ms len blocks fresh) (hp : ∀ m ∈ ms, ¬ Region sb m p)
    (hout : ¬ Inside p (b.pos, len)) : b'.bytes p = b.bytes p := by
  obtain ⟨ws, hchanged, hown⟩ := h.changed
  refine hchanged.kept p fun w hw hin => ?_
  rcases hown w hw with ⟨m, hm, -, hwithin⟩ | ⟨-, hlo, hhi⟩
  · refine hp m hm ?_
    unfold Within at hwithin
    unfold Region Inside at *
    rw [Nat.add_mul] at hwithin
    omega
  · unfold Inside at *
    omega

/-! ## 2. Inodes and directories -/

/-- The inode is in its slot. -/
def HasInode (sb : Superblock) (bytes : Bytes) (m : Made) : Prop :=
  Packed.load bytes (inodePos sb m.id) = madeInode m

/-- The entry at an address: the number, and the name with its terminator. -/
structure HasEntry (bytes : Bytes) (p id : Nat) (name : List UInt8) : Prop where
  short : name.length ≤ 59
  id : le32 bytes p = id
  name : ∀ k ≤ name.length, bytes (p + 4 + k) = cstr name (fun _ => 0) k

/-- **The blocks of a directory list its entries**, and zeros follow. -/
structure Listed (bytes : Bytes) (first blocks : Nat) (listing : List (Nat × List UInt8)) :
    Prop where
  fits : listing.length * dirEntrySize ≤ blocks * fsBlockSize
  entries : ∀ i x, listing[i]? = some x →
    HasEntry bytes (first * fsBlockSize + i * dirEntrySize) x.1 x.2
  padding : ∀ p, first * fsBlockSize + listing.length * dirEntrySize ≤ p →
    p < first * fsBlockSize + blocks * fsBlockSize → bytes p = 0

variable {bytes bytes' : Bytes}

theorem HasInode.congr {m : Made} (h : HasInode sb bytes m)
    (hsame : ∀ p, Inside p (inodePos sb m.id, 64) → bytes' p = bytes p) :
    HasInode sb bytes' m := by
  unfold HasInode at *
  rw [← h]
  exact Packed.load_congr fun k hk => hsame _ ⟨Nat.le_add_right _ _, Nat.add_lt_add_left hk _⟩

theorem HasEntry.congr {p id : Nat} {name : List UInt8} (h : HasEntry bytes p id name)
    (hsame : ∀ q, Inside q (p, dirEntrySize) → bytes' q = bytes q) : HasEntry bytes' p id name := by
  have hshort := h.short
  have hin : ∀ k < dirEntrySize, bytes' (p + k) = bytes (p + k) :=
    fun k hk => hsame _ ⟨Nat.le_add_right _ _, Nat.add_lt_add_left hk _⟩
  unfold dirEntrySize at hin
  refine ⟨hshort, ?_, fun k hk => ?_⟩
  · rw [← h.id]
    exact le32_congr fun k hk => hin k (by omega)
  · rw [← h.name k hk, Nat.add_assoc]
    exact hin _ (by omega)

theorem Listed.congr {first blocks : Nat} {listing : List (Nat × List UInt8)}
    (h : Listed bytes first blocks listing)
    (hsame : ∀ p, Inside p (first * fsBlockSize, blocks * fsBlockSize) → bytes' p = bytes p) :
    Listed bytes' first blocks listing := by
  have hfits := h.fits
  refine ⟨hfits, fun i x hx => (h.entries i x hx).congr fun q hq => hsame q ?_, fun p hlo hhi => ?_⟩
  · obtain ⟨hi, -⟩ := List.getElem?_eq_some_iff.mp hx
    unfold dirEntrySize at *
    exact inside_mono hq (by omega) (by omega)
  · rw [hsame p ⟨(Nat.le_add_right _ _).trans hlo, hhi⟩]
    exact h.padding p hlo hhi

/-- An entry as it is written. -/
theorem hasEntry_write (b : Image) (owner : Nat) (e : DirEntry) {id : Nat} {name : List UInt8}
    (hid : id < 4294967296) (hname : name.length ≤ 59) :
    HasEntry (b.write owner (e.fill id name).bytes dirEntrySize).bytes b.pos id name := by
  have hbytes : ∀ k < 64, (b.write owner (e.fill id name).bytes dirEntrySize).bytes (b.pos + k) =
      strcpyAt (e.set32 0 id).bytes 4 name k := by
    intro k hk
    have hfill : (e.fill id name).bytes k = strcpyAt (e.set32 0 id).bytes 4 name k := by
      unfold DirEntry.fill
      rw [Packed.bytes_load _ _ hk, Nat.zero_add]
    rw [← hfill]
    exact blit_add hk
  refine ⟨hname, ?_, fun k hk => ?_⟩
  · have hget : (e.set32 0 id).get32 0 = id := by
      rw [Packed.get32_set32 _ (by decide), u32_eq hid]
    have hword : le32 (b.write owner (e.fill id name).bytes dirEntrySize).bytes b.pos =
        (e.set32 0 id).get32 0 := by
      refine le32_congr fun k hk => ?_
      rw [hbytes k (by omega), Nat.zero_add]
      exact blit_out (Or.inl (by omega))
    exact hword.trans hget
  · rw [Nat.add_assoc, hbytes _ (by omega)]
    exact blit_add (by omega)

/-! ## 3. Names -/

/-- **A name that a directory can hold** and a path can contain. -/
structure NameOk (name : List UInt8) : Prop where
  nonempty : name ≠ []
  short : name.length ≤ 59
  nonzero : ∀ c ∈ name, c ≠ 0
  noSlash : slash ∉ name
  noDot : name.head? ≠ some dot

instance (name : List UInt8) : Decidable (NameOk name) :=
  have : Decidable (∀ c ∈ name, c ≠ 0) := List.decidableBAll _ _
  decidable_of_iff (name ≠ [] ∧ name.length ≤ 59 ∧ (∀ c ∈ name, c ≠ 0) ∧ slash ∉ name ∧
    name.head? ≠ some dot)
    ⟨fun ⟨h1, h2, h3, h4, h5⟩ => ⟨h1, h2, h3, h4, h5⟩, fun ⟨h1, h2, h3, h4, h5⟩ => ⟨h1, h2, h3, h4, h5⟩⟩

/-- The names in a directory. -/
def Entries.names : Entries → List (List UInt8)
  | .nil => []
  | .cons name _ rest => name :: rest.names

mutual

/-- Names of this kind everywhere, and in each directory distinct ones, none of which begins with
another. -/
def Node.Named : Node → Prop
  | .file _ => True
  | .dir entries =>
    (entries.names.Pairwise fun name name' => ¬ name <+: name' ∧ ¬ name' <+: name) ∧ entries.Named

def Entries.Named : Entries → Prop
  | .nil => True
  | .cons name node rest => NameOk name ∧ node.Named ∧ rest.Named

end

/-! ## 4. Stored trees -/

/-- The entries of a directory. -/
def Entries.listing : Entries → (next : Nat) → List (Nat × List UInt8)
  | .nil, _ => []
  | .cons name node rest, next =>
    let after := if name = thirdStage then next else next + 1
    (childId name next, name) :: rest.listing (after + node.fresh)

theorem Entries.listing_length : ∀ (entries : Entries) (next : Nat),
    (entries.listing next).length = entries.length
  | .nil, _ => rfl
  | .cons _ _ rest, _ => congrArg Nat.succ (rest.listing_length _)

theorem Entries.listing_names : ∀ (entries : Entries) (next : Nat),
    (entries.listing next).map Prod.snd = entries.names
  | .nil, _ => rfl
  | .cons _ _ rest, _ => congrArg (List.cons _) (rest.listing_names _)

mutual

/-- **A file or directory is on the disk** as it was planned, with all that is in it. -/
def Node.Stored (sb : Superblock) (bytes : Bytes) :
    Node → (path : List (List UInt8)) → (id parent first next : Nat) → Prop
  | .file data, path, id, _, first, _ =>
    HasInode sb bytes ⟨path, id, filetypeFile, data.length, first, bytesToBlocks data.length⟩
  | .dir entries, path, id, parent, first, next =>
    let size := (entries.length + 2) * dirEntrySize
    HasInode sb bytes ⟨path, id, filetypeDir, size, first, bytesToBlocks size⟩ ∧
      Listed bytes first (bytesToBlocks size)
        ((id, [dot]) :: (parent, [dot, dot]) :: entries.listing next) ∧
      entries.Stored sb bytes path id (first + bytesToBlocks size) next

def Entries.Stored (sb : Superblock) (bytes : Bytes) :
    Entries → (path : List (List UInt8)) → (id first next : Nat) → Prop
  | .nil, _, _, _, _ => True
  | .cons name node rest, path, id, first, next =>
    let after := if name = thirdStage then next else next + 1
    node.Stored sb bytes (path ++ [name]) (childId name next) id first after ∧
      rest.Stored sb bytes path id (first + node.blocks) (after + node.fresh)

end

mutual

/-- What is stored depends on the slots and extents of the plan. -/
theorem Node.Stored.congr : ∀ (node : Node) (path : List (List UInt8))
    (id parent first next : Nat),
    (∀ m ∈ node.plan path id first next, ∀ p, Region sb m p → bytes' p = bytes p) →
    node.Stored sb bytes path id parent first next → node.Stored sb bytes' path id parent first next
  | .file data, path, id, parent, first, next => by
    unfold Node.plan Node.Stored
    intro hsame h
    exact h.congr fun p hp => hsame _ (List.mem_singleton_self _) p (Or.inl hp)
  | .dir entries, path, id, parent, first, next => by
    unfold Node.plan Node.Stored
    intro hsame
    rintro ⟨hinode, hlisted, hstored⟩
    refine ⟨hinode.congr fun p hp => hsame _ List.mem_cons_self p (Or.inl hp),
      hlisted.congr fun p hp => hsame _ List.mem_cons_self p (Or.inr hp), ?_⟩
    exact Entries.Stored.congr entries path id _ next
      (fun m hm => hsame m (List.mem_cons_of_mem _ hm)) hstored

theorem Entries.Stored.congr : ∀ (entries : Entries) (path : List (List UInt8))
    (id first next : Nat),
    (∀ m ∈ entries.plan path first next, ∀ p, Region sb m p → bytes' p = bytes p) →
    entries.Stored sb bytes path id first next → entries.Stored sb bytes' path id first next
  | .nil, _, _, _, _ => fun _ _ => by
    unfold Entries.Stored
    exact trivial
  | .cons name node rest, path, id, first, next => by
    unfold Entries.plan Entries.Stored
    intro hsame
    rintro ⟨hnode, hrest⟩
    exact ⟨Node.Stored.congr node _ _ _ _ _ (fun m hm => hsame m (List.mem_append_left _ hm)) hnode,
      Entries.Stored.congr rest _ _ _ _ (fun m hm => hsame m (List.mem_append_right _ hm)) hrest⟩

end

/-! ## 5. Writing stores the tree -/

/-- The entries `"."` and `".."`. -/
theorem beginDir_entries (path : List (List UInt8)) (size id parent : Nat) (b : Image)
    (h : b.firstBlock + bytesToBlocks size ≤ maxBlocks) (hid : id < 4294967296)
    (hparent : parent < 4294967296) :
    HasEntry (beginDir sb path size id parent b).1.bytes (b.firstBlock * fsBlockSize) id [dot] ∧
      HasEntry (beginDir sb path size id parent b).1.bytes
        (b.firstBlock * fsBlockSize + dirEntrySize) parent [dot, dot] := by
  have hpos := seek_extent (b.addInode sb ⟨path, id, filetypeDir, size, b.firstBlock,
    bytesToBlocks size⟩) h
  unfold beginDir
  simp only
  generalize (b.addInode sb ⟨path, id, filetypeDir, size, b.firstBlock, bytesToBlocks size⟩).seek
    (u32 (b.firstBlock * fsBlockSize)) = b' at *
  rw [← hpos]
  refine ⟨(hasEntry_write b' id Packed.zero hid (by decide)).congr fun q hq => ?_,
    hasEntry_write (b'.write id _ dirEntrySize) id _ hparent (by decide)⟩
  refine (filled_write _ id _ dirEntrySize).kept ?_
  show ¬ Inside q (b'.pos + dirEntrySize, dirEntrySize)
  unfold Inside at *
  simp only at *
  omega

/-- The inode is in its slot, when what follows stays outside it. -/
theorem hasInode_addInode {b b' : Image} {m : Made}
    (hsame : ∀ p, Inside p (inodePos sb m.id, 64) → b'.bytes p = (b.addInode sb m).bytes p) :
    HasInode sb b'.bytes m := by
  have hadd : HasInode sb (b.addInode sb m).bytes m := by
    funext ⟨k, hk⟩
    show blit b.bytes (inodePos sb m.id) 64 (madeInode m).bytes (inodePos sb m.id + k) = _
    rw [blit_add hk]
    exact Packed.bytes_of_lt _ hk
  exact hadd.congr hsame

mutual

/-- **A file or directory is stored** once it is written. -/
theorem writeNode_stored : ∀ (node : Node) (path : List (List UInt8)) (id parent : Nat)
    (b : Image), id < 4294967296 → parent < 4294967296 → b.firstBlock + node.blocks ≤ maxBlocks →
    b.nextInodeId + node.fresh < 4294967296 → node.Named →
    Separate sb (node.plan path id b.firstBlock b.nextInodeId) →
      node.Stored sb (writeNode sb node path id parent b).bytes path id parent b.firstBlock
        b.nextInodeId
  | .file data, path, id, _, b => by
    unfold writeNode Node.plan Node.blocks Node.Stored
    intro _ _ hblocks _ _ hsep
    refine hasInode_addInode fun p hp => (writeFile_filled path data id b hblocks).kept ?_
    rw [seek_extent _ hblocks]
    exact hsep.own _ (List.mem_singleton_self _) p hp
  | .dir entries, path, id, parent, b => by
    unfold writeNode Node.plan Node.blocks Node.fresh Node.Named Node.Stored
    intro hid hparent hblocks hfresh
    rintro ⟨-, hnamed⟩ hsep
    have hsize : u32 ((entries.length + 2) * dirEntrySize) = (entries.length + 2) * dirEntrySize :=
      u32_of_blocks (by omega)
    simp only [hsize] at hsep ⊢
    have hsum : 2 * dirEntrySize + entries.length * dirEntrySize =
        (entries.length + 2) * dirEntrySize := by
      rw [Nat.add_mul]
      omega
    generalize (entries.length + 2) * dirEntrySize = size at *
    have hextent : b.firstBlock + bytesToBlocks size ≤ maxBlocks := by omega
    have hroom := numPaddingBytes_eq size
    obtain ⟨hat, hbefore, hsame⟩ := @beginDir_cursors sb path size id parent b hextent
    obtain ⟨hself, hup⟩ := @beginDir_entries sb path size id parent b hextent hid hparent
    have hposition : (beginDir sb path size id parent b).1.pos + entries.length * dirEntrySize <
        4294967296 := by
      rw [hat]
      rw [maxBlocks_eq] at hextent
      unfold fsBlockSize at *
      omega
    have hloop := @writeEntries_wrote sb entries path id (beginDir sb path size id parent b).2
      (beginDir sb path size id parent b).1 (by omega) (by omega) hposition
    have hstored := writeEntries_stored entries path id (beginDir sb path size id parent b).2
      (beginDir sb path size id parent b).1 hid (by omega) (by omega) hposition hnamed
    rw [hbefore, hsame] at hloop hstored
    obtain ⟨hpos, hall⟩ := hloop.directory hextent hsum
    rw [hat] at hstored
    -- the directory's own bytes are in its extent
    have hown : ∀ {p : Nat}, Inside p (b.firstBlock * fsBlockSize, bytesToBlocks size * fsBlockSize) →
        ∀ m ∈ entries.plan path (b.firstBlock + bytesToBlocks size) b.nextInodeId,
          ¬ Region sb m p := fun hp => hsep.head (Or.inr hp)
    obtain ⟨htrees, hentries⟩ := hstored hsep.tail fun m hm p hp =>
      hown (inside_mono hp (by omega) (by omega)) m hm
    generalize hb₁ : (beginDir sb path size id parent b).1 = b₁ at *
    generalize writeEntries sb entries path id (beginDir sb path size id parent b).2 b₁ = b₂ at *
    have hlength : ((id, [dot]) :: (parent, [dot, dot]) :: entries.listing b.nextInodeId).length *
        dirEntrySize = size := by
      rw [List.length_cons, List.length_cons, entries.listing_length, Nat.add_mul, Nat.add_mul]
      omega
    -- the padding
    have hpad : ∀ p, ¬ Inside p (b.firstBlock * fsBlockSize + size,
        numPaddingBytes size fsBlockSize) → (b₂.pad id size).bytes p = b₂.bytes p := by
      rw [← hpos]
      exact fun p => (filled_write b₂ id _ _).kept
    have hfirst : ∀ {p : Nat}, p < b.firstBlock * fsBlockSize + size →
        (b₂.pad id size).bytes p = b₂.bytes p := fun hp => hpad _ fun hin => by
      unfold Inside at hin
      simp only at hin
      omega
    -- the two entries in front of the loop
    have hkept : ∀ {p : Nat}, Inside p (b.firstBlock * fsBlockSize, 2 * dirEntrySize) →
        (b₂.pad id size).bytes p = b₁.bytes p := by
      intro p hp
      have hin : Inside p (b.firstBlock * fsBlockSize, bytesToBlocks size * fsBlockSize) :=
        inside_mono hp (Nat.le_refl _) (by omega)
      rw [hfirst (by unfold Inside at hp; simp only at hp; omega)]
      refine hloop.kept (hown hin) ?_
      rw [hat]
      unfold Inside at *
      simp only at *
      omega
    refine ⟨hasInode_addInode fun p hp => hall.kept (hsep.head (Or.inl hp)) ?_,
      ⟨by omega, fun i x hx => ?_, fun p hlo hhi => ?_⟩,
      Entries.Stored.congr entries _ _ _ _ (fun m hm p hp => hpad p fun hin => ?_) htrees⟩
    · rw [seek_extent _ hextent]
      exact hsep.own _ List.mem_cons_self p hp
    · cases i with
      | zero =>
        obtain rfl : (id, [dot]) = x := by simpa using hx
        rw [Nat.zero_mul, Nat.add_zero]
        exact hself.congr fun q hq => hkept (inside_mono hq (Nat.le_refl _) (by omega))
      | succ i =>
        cases i with
        | zero =>
          obtain rfl : (parent, [dot, dot]) = x := by simpa using hx
          rw [Nat.zero_add, Nat.one_mul]
          exact hup.congr fun q hq => hkept (inside_mono hq (by omega) (by omega))
        | succ i =>
          have hx : (entries.listing b.nextInodeId)[i]? = some x := by simpa using hx
          obtain ⟨hi, -⟩ := List.getElem?_eq_some_iff.mp hx
          rw [entries.listing_length] at hi
          have hat' : b.firstBlock * fsBlockSize + (i + 1 + 1) * dirEntrySize =
              b.firstBlock * fsBlockSize + 2 * dirEntrySize + i * dirEntrySize := by
            rw [Nat.add_assoc i, Nat.add_mul]
            omega
          rw [hat']
          refine (hentries i x hx).congr fun q hq => hfirst ?_
          unfold Inside dirEntrySize at *
          simp only at *
          omega
    · rw [hlength] at hlo
      rw [← hpos] at hlo
      have hend : p < b₂.pos + numPaddingBytes size fsBlockSize := by omega
      show blit b₂.bytes b₂.pos (numPaddingBytes size fsBlockSize) (fun _ => 0) p = 0
      exact blit_in hlo hend
    · exact hown (inside_mono hin (by omega) (by omega)) m hm hp

/-- **What the loop over a directory stores**: the trees, and the entries from the position on. -/
theorem writeEntries_stored : ∀ (entries : Entries) (path : List (List UInt8)) (id : Nat)
    (e : DirEntry) (b : Image), id < 4294967296 →
    b.firstBlock + entries.blocks ≤ maxBlocks → b.nextInodeId + entries.fresh < 4294967296 →
    b.pos + entries.length * dirEntrySize < 4294967296 → entries.Named →
    Separate sb (entries.plan path b.firstBlock b.nextInodeId) →
    (∀ m ∈ entries.plan path b.firstBlock b.nextInodeId, ∀ p,
      Inside p (b.pos, entries.length * dirEntrySize) → ¬ Region sb m p) →
      entries.Stored sb (writeEntries sb entries path id e b).bytes path id b.firstBlock
          b.nextInodeId ∧
        ∀ i x, (entries.listing b.nextInodeId)[i]? = some x →
          HasEntry (writeEntries sb entries path id e b).bytes (b.pos + i * dirEntrySize) x.1 x.2
  | .nil, _, _, _, b => by
    unfold Entries.Stored Entries.listing
    exact fun _ _ _ _ _ _ _ => ⟨trivial, fun i x h => absurd h (by simp)⟩
  | .cons name node rest, path, id, e, b => by
    unfold writeEntries Entries.plan Entries.blocks Entries.fresh Entries.length Entries.Named
      Entries.Stored Entries.listing
    intro hid hblocks hfresh hposition
    rintro ⟨hname, hnode, hrest⟩ hsep hown
    have hnext := @nextId_eq name b.nextInodeId (by omega)
    have hstep : (if name = thirdStage then b.nextInodeId else b.nextInodeId + 1) =
        b.nextInodeId + if name = thirdStage then 0 else 1 := by
      split <;> rfl
    have hchild : childId name b.nextInodeId < 4294967296 := by
      unfold childId
      split <;> omega
    rw [Nat.add_mul, Nat.one_mul] at hposition
    simp only [hnext, hstep] at hsep hown ⊢
    generalize (if name = thirdStage then 0 else 1) = step at *
    generalize childId name b.nextInodeId = child at *
    -- the image after the entry
    have hentry : HasEntry (({ b with nextInodeId := b.nextInodeId + step } : Image).write id
      (e.fill child name).bytes dirEntrySize).bytes b.pos child name :=
        hasEntry_write _ id e hchild hname.short
    obtain ⟨b₁, hb₁⟩ : ∃ b₁, b₁ = ({ b with nextInodeId := b.nextInodeId + step } : Image).write id
      (e.fill child name).bytes dirEntrySize := ⟨_, rfl⟩
    rw [← hb₁] at hentry ⊢
    have hpos₁ : b₁.pos = b.pos + dirEntrySize := congrArg Image.pos hb₁
    have hfirst₁ : b₁.firstBlock = b.firstBlock := by rw [hb₁]; rfl
    have hnext₁ : b₁.nextInodeId = b.nextInodeId + step := by rw [hb₁]; rfl
    clear hb₁
    rw [← hfirst₁, ← hnext₁] at hsep hown ⊢
    -- what it names
    have hwrote := @writeNode_wrote sb node (path ++ [name]) child id b₁ (by omega) (by omega)
    have hstored := writeNode_stored node (path ++ [name]) child id b₁ hchild hid (by omega)
      (by omega) hnode hsep.left
    rw [hpos₁, u32_eq (by omega)]
    generalize writeNode sb node (path ++ [name]) child id b₁ = b₂ at *
    -- the rest
    have hfirst₂ : (b₂.seek (b.pos + dirEntrySize)).firstBlock = b₁.firstBlock + node.blocks :=
      hwrote.firstBlock
    have hnext₂ : (b₂.seek (b.pos + dirEntrySize)).nextInodeId = b₁.nextInodeId + node.fresh :=
      hwrote.nextInodeId
    have hpos₂ : (b₂.seek (b.pos + dirEntrySize)).pos = b.pos + dirEntrySize := rfl
    have hrestWrote := @writeEntries_wrote sb rest path id (e.fill child name)
      (b₂.seek (b.pos + dirEntrySize)) (by omega) (by omega) (by omega)
    have hrestStored := writeEntries_stored rest path id (e.fill child name)
      (b₂.seek (b.pos + dirEntrySize)) hid (by omega) (by omega) (by omega) hrest
    rw [hfirst₂, hnext₂, hpos₂] at hrestStored
    rw [hfirst₂, hnext₂] at hrestWrote
    rw [Nat.add_mul, Nat.one_mul] at hown
    have hwide : ∀ {p : Nat}, Inside p (b.pos + dirEntrySize, rest.length * dirEntrySize) →
        Inside p (b.pos, rest.length * dirEntrySize + dirEntrySize) :=
      fun hp => inside_mono hp (by omega) (by omega)
    obtain ⟨hstoredRest, hentries⟩ := hrestStored hsep.right fun m hm p hp =>
      hown m (List.mem_append_right _ hm) p (hwide hp)
    generalize writeEntries sb rest path id (e.fill child name) (b₂.seek (b.pos + dirEntrySize)) =
      b₃ at *
    refine ⟨⟨Node.Stored.congr node _ _ _ _ _ (fun m hm p hp => ?_) hstored, hstoredRest⟩,
      fun i x hx => ?_⟩
    · exact hrestWrote.kept (hsep.across hm hp) fun hin =>
        hown m (List.mem_append_left _ hm) p (hwide hin) hp
    · cases i with
      | zero =>
        obtain rfl : (child, name) = x := by simpa using hx
        rw [Nat.zero_mul, Nat.add_zero]
        refine hentry.congr fun q hq => ?_
        have hclear : ∀ m ∈ node.plan (path ++ [name]) child b₁.firstBlock b₁.nextInodeId ++
            rest.plan path (b₁.firstBlock + node.blocks) (b₁.nextInodeId + node.fresh),
            ¬ Region sb m q :=
          fun m hm => hown m hm q (inside_mono hq (Nat.le_refl _) (by omega))
        have hfresh : b₃.bytes q = b₂.bytes q := by
          refine hrestWrote.kept (fun m hm => hclear m (List.mem_append_right _ hm)) ?_
          unfold Inside at *
          simp only at *
          omega
        exact hfresh.trans (hwrote.kept fun m hm => hclear m (List.mem_append_left _ hm))
      | succ i =>
        have hat : b.pos + (i + 1) * dirEntrySize = b.pos + dirEntrySize + i * dirEntrySize := by
          rw [Nat.add_mul]
          omega
        rw [hat]
        exact hentries i x hx

end

/-! ## 6. The image -/

/-- The slots and extents of a tree that fits are separate. -/
theorem Fits.separate {root : Entries} (h : Fits root) (hone : root.thirds = 1)
    (bootBlock : Bytes) : Separate (makeDisk bootBlock root).1
      ((Node.dir root).plan [] 1 (builtFirstBlock root.count) 3) := by
  obtain ⟨hinodes, hcap⟩ := h.bounds
  have htiles := (Node.dir root).plan_tiles [] 1 (builtFirstBlock root.count) 3
  have hslot := fun m hm => @Fits.slot root h hone bootBlock m hm
  have hids := List.pairwise_map.mp ((rootPlan_ids hone (builtFirstBlock root.count)).nodup_iff.mpr
    List.nodup_range')
  generalize (Node.dir root).plan [] 1 (builtFirstBlock root.count) 3 = ms at *
  have hbelow : ∀ m ∈ ms, inodePos (makeDisk bootBlock root).1 m.id + 64 ≤
      builtFirstBlock root.count * fsBlockSize := by
    intro m hm
    obtain ⟨hat, hlt⟩ := hslot m hm
    rw [hat]
    unfold builtFirstBlock fsBlockSize
    omega
  have habove : ∀ m ∈ ms, builtFirstBlock root.count * fsBlockSize ≤ m.first * fsBlockSize :=
    fun m hm => Nat.mul_le_mul_right _ (htiles.mem hm).1
  refine ⟨fun m hm p hslotp hextent => ?_, (htiles.disjoint.and hids).imp_of_mem ?_⟩
  · have := hbelow m hm
    have := habove m hm
    unfold Inside at *
    omega
  · rintro m m' hm hm' ⟨hapart, hne⟩ p hp hp'
    obtain ⟨hat, -⟩ := hslot m hm
    obtain ⟨hat', -⟩ := hslot m' hm'
    have := hbelow m hm
    have := hbelow m' hm'
    have := habove m hm
    have := habove m' hm'
    unfold Region Inside Apart fsBlockSize at *
    omega

/-- A bitmap and its padding. -/
theorem writeBitmap_filled (bits : Nat) (b : Image) : Filled b (writeBitmap bits b) 0
    (bitmapLength bits + numPaddingBytes (bitmapLength bits) fsBlockSize) :=
  (filled_write b 0 _ _).trans (filled_write _ 0 _ _)

/-- The superblock is in block 1 before the inodes are written. -/
theorem writeAreas_superblock (bootBlock : Bytes) (sb : Superblock) {k : Nat} (hk : k < 64) :
    (writeAreas bootBlock sb).bytes (fsBlockSize + k) = sb.bytes k := by
  unfold writeAreas
  simp only
  generalize hb₀ : (⟨fun _ => 0, 0, 3, 0, [], []⟩ : Image).write 0 bootBlock fsBlockSize = b₀
  have hpos : b₀.pos = fsBlockSize := by
    rw [← hb₀]
    exact Nat.zero_add _
  have hpad := filled_write (b₀.write 0 sb.bytes 64) 0 (fun _ => 0) (numPaddingBytes 64 fsBlockSize)
  have hinodes := writeBitmap_filled sb.numInodes ((b₀.write 0 sb.bytes 64).pad 0 64)
  have hdata := writeBitmap_filled (sb.get16 22) (writeBitmap sb.numInodes
    ((b₀.write 0 sb.bytes 64).pad 0 64))
  have hafter := hpad.trans (hinodes.trans hdata)
  have hkept := @Filled.kept _ _ _ _ (b₀.pos + k) hafter fun hin => by
    have hlo : b₀.pos + 64 ≤ b₀.pos + k := hin.1
    omega
  rw [hpos] at hkept
  rw [hkept]
  show blit b₀.bytes b₀.pos 64 sb.bytes (fsBlockSize + k) = sb.bytes k
  rw [hpos]
  exact blit_add hk

/-- **The image of a tree that fits** stores it, with the superblock in block 1. -/
theorem makeDisk_stored {root : Entries} (h : Fits root) (hone : root.thirds = 1)
    (hnamed : (Node.dir root).Named) (bootBlock : Bytes) :
    (Node.dir root).Stored (makeDisk bootBlock root).1 (makeDisk bootBlock root).2.bytes [] 1 1
        (builtFirstBlock root.count) 3 ∧
      Packed.load (makeDisk bootBlock root).2.bytes fsBlockSize = (makeDisk bootBlock root).1 := by
  obtain ⟨hinodes, hcap⟩ := h.bounds
  have hsizes := h.sizes bootBlock
  have hfirst : (makeDisk bootBlock root).1.firstDataBlock = builtFirstBlock root.count :=
    congrArg Layout.dataArea hsizes.layout
  have hcount := root.count_eq
  have hfresh : (Node.dir root).fresh = root.fresh := by
    unfold Node.fresh
    rfl
  obtain ⟨b, hb⟩ : ∃ b : Image, b = { writeAreas bootBlock (makeDisk bootBlock root).1 with
    firstBlock := (makeDisk bootBlock root).1.firstDataBlock } := ⟨_, rfl⟩
  have hblock : b.firstBlock = builtFirstBlock root.count := by
    rw [hb]
    exact hfirst
  have hnext : b.nextInodeId = 3 := by
    rw [hb]
    rfl
  have hmake : (makeDisk bootBlock root).2 =
      writeNode (makeDisk bootBlock root).1 (.dir root) [] 1 1 b := by
    rw [hb]
    rfl
  constructor
  · have hblocks : b.firstBlock + (Node.dir root).blocks ≤ maxBlocks := by
      rw [hblock, maxBlocks_eq]
      unfold builtFirstBlock
      omega
    have hstored := @writeNode_stored (makeDisk bootBlock root).1 (.dir root) [] 1 1 b (by decide)
      (by decide) hblocks (by omega) hnamed
    rw [hblock, hnext] at hstored
    rw [hmake]
    exact hstored (h.separate hone bootBlock)
  · funext ⟨k, hk⟩
    have hkept := @Wrote.kept _ _ _ _ _ _ (fsBlockSize + k) (makeDisk_wrote h bootBlock) fun m hm hin => by
      have htiles := ((Node.dir root).plan_tiles [] 1 (builtFirstBlock root.count) 3).mem hm
      obtain ⟨hat, -⟩ := h.slot hone bootBlock hm
      unfold builtFirstBlock at htiles
      unfold Region Inside fsBlockSize at *
      omega
    show (makeDisk bootBlock root).2.bytes (fsBlockSize + k) = _
    rw [hkept]
    have hsuper := writeAreas_superblock bootBlock (makeDisk bootBlock root).1 hk
    rw [Packed.bytes_of_lt _ hk] at hsuper
    exact hsuper

end AmateurOs.MakeDisk
